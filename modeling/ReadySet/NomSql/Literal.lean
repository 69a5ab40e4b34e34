import ReadySet.Library.Parser

/-!
Owns SQL literals (nom-sql's literal.rs and dialect.rs): the parser `literal` with
all its alternatives, and how a string is displayed. A double is kept as its bits.

Whatever a string holds, its displayed form reads back as that string and ends
where the display ended, so that no string can close its own quotation.
-/

namespace ReadySet.NomSql

open Library Library.Parser List
open String (utf8EncodeChar)

inductive Dialect
  | postgreSQL
  | mySQL

inductive QuotingStyle
  | single
  | double
  | singleOrDouble

inductive ItemPlaceholder
  | questionMark
  | dollarNumber (number : UInt32)
  | colonNumber (number : UInt32)

inductive Literal
  | null
  | boolean (value : Bool)
  | integer (value : Int64)
  | unsignedInteger (value : UInt64)
  | double (value : UInt64) (precision : UInt8)
  | string (text : String)
  | blob (bytes : Bytes)
  | byteArray (bytes : Bytes)
  | placeholder (item : ItemPlaceholder)
  | bitVector (bytes : Bytes)

/-! ## Strings -/

def piece (quote : String) (escapeQuote : Bytes) : Parser Bytes :=
  takeWhile1 (· ∉ escapeQuote) <|>
  (do tag quote; tag quote; pure (encode quote)) <|>
  value [92] (tag "\\\\") <|>
  value [127] (tag "\\b") <|>
  value [13] (tag "\\r") <|>
  value [10] (tag "\\n") <|>
  value [9] (tag "\\t") <|>
  value [0] (tag "\\0") <|>
  value [26] (tag "\\Z") <|>
  (do tag "\\"; take 1)

def rawStringQuoted (quote : String) (escapeQuote : Bytes) : Parser Bytes :=
  delimited (tag quote) (foldMany0 (piece quote escapeQuote) (· ++ ·) []) (tag quote)

def rawStringSingleQuoted : Parser Bytes := rawStringQuoted "'" [92, 39]

def rawStringDoubleQuoted : Parser Bytes := rawStringQuoted "\"" [92, 34]

def rawStringLiteral : QuotingStyle → Parser Bytes
  | .single => rawStringSingleQuoted
  | .double => rawStringDoubleQuoted
  | .singleOrDouble => rawStringSingleQuoted <|> rawStringDoubleQuoted

def Dialect.quotingStyle : Dialect → QuotingStyle
  | .postgreSQL => .single
  | .mySQL => .singleOrDouble

def Dialect.stringLiteral (dialect : Dialect) : Parser Bytes :=
  match dialect with
  | .postgreSQL => do
      let _ ← opt (tagNoCase "E")
      rawStringLiteral dialect.quotingStyle
  | .mySQL => do
      let _ ← opt (tag "_utf8mb4" <|> tag "_utf8" <|> tag "_binary")
      rawStringLiteral dialect.quotingStyle

/-! ## The other literals -/

def isDigit (byte : UInt8) : Bool := 48 ≤ byte && byte ≤ 57

def isSqlIdentifier (byte : UInt8) : Bool :=
  isDigit byte || 65 ≤ byte && byte ≤ 90 || 97 ≤ byte && byte ≤ 122 || byte == 95

def digit1 : Parser Bytes := takeWhile1 isDigit

/-- What the standard library and the crates `nom`, `hex` and `bit-vec` read numbers with. -/
structure Conversions where
  u32 : Bytes → Option UInt32
  u64 : Bytes → Option UInt64
  f64 : Bytes → Option UInt64
  hexDecode : Bytes → Option Bytes
  toBytes : List Bool → Bytes

variable (conv : Conversions) {byte : UInt8} {char : Char}

def integerLiteral : Parser Literal := do
  let sign ← opt (tag "-")
  let num ← mapRes digit1 conv.u64
  pure (if sign.isSome then .integer (-num.toInt64) else .unsignedInteger num)

/-- Only the digits after the point are kept. -/
def float : Parser Bytes := do
  let _ ← opt (tag "-")
  let _ ← digit1
  tag "."
  digit1

def floatLiteral : Parser Literal := fun input => do
  let (frac, rest) ← float input
  let value ← conv.f64 (input.take (input.length - rest.length))
  some (.double value (UInt8.ofNat frac.length), rest)

def booleanLiteral : Parser Literal :=
  value (.boolean true) (tagNoCase "true") <|> value (.boolean false) (tagNoCase "false")

def hexBytes : Parser Bytes := foldMany0 (mapRes (take 2) conv.hexDecode) (· ++ ·) []

def Dialect.bytesLiteral : Dialect → Parser Bytes
  | .postgreSQL => delimited (tag "E'\\\\x") (hexBytes conv) (tag "'::bytea")
  | .mySQL => delimited (tag "X'") (hexBytes conv) (tag "'")

def bits : Parser (List Bool) :=
  foldMany0 (value false (tag "0") <|> value true (tag "1")) (fun acc bit => acc ++ [bit]) []

def Dialect.bitvecLiteral : Dialect → Parser (List Bool)
  | .postgreSQL => delimited (tagNoCase "b'") bits (tag "'")
  | .mySQL => failure

def nullLiteral : Parser Literal := do
  tagNoCase "null"
  fun input => if input.head?.any isSqlIdentifier then none else some (.null, input)

def simpleLiteral (dialect : Dialect) : Parser Literal :=
  floatLiteral conv <|> integerLiteral conv <|> booleanLiteral <|>
  Literal.byteArray <$> dialect.bytesLiteral conv <|>
  (fun bits => .bitVector (conv.toBytes bits)) <$> dialect.bitvecLiteral <|> nullLiteral

/-- A string that is not UTF-8 is kept as bytes. -/
def ofBytes (bytes : Bytes) : Literal :=
  match String.fromUTF8? bytes.toByteArray with
  | some text => .string text
  | none => .blob bytes

def literal (dialect : Dialect) : Parser Literal :=
  simpleLiteral conv dialect <|>
  ofBytes <$> dialect.stringLiteral <|>
  value (.placeholder .questionMark) (tag "?") <|>
  (do tag ":"; (.placeholder <| .colonNumber ·) <$> mapRes digit1 conv.u32) <|>
  (do tag "$"; (.placeholder <| .dollarNumber ·) <$> mapRes digit1 fun digits =>
    (conv.u32 digits).filter (· ≠ 0)) <|>
  booleanLiteral

def replace (text : List Char) (old : Char) (new : List Char) : List Char :=
  text.flatMap fun char => if char = old then new else [char]

def quote : Char := Char.ofNat 39

def backslash : Char := Char.ofNat 92

def escape (text : List Char) : List Char :=
  replace (replace text quote [quote, quote]) backslash [backslash, backslash]

/-- The string arm of the source's `Display`. -/
def displayString (text : String) : String :=
  String.ofList (quote :: (escape text.toList ++ [quote]))

/-! ## Display, in bytes -/

def escapeByte (byte : UInt8) : Bytes := if byte = 39 ∨ byte = 92 then [byte, byte] else [byte]

/-- Only an ASCII character has an ASCII byte in its encoding. -/
theorem eq_ofNat_of_mem_utf8EncodeChar
    (member : byte ∈ utf8EncodeChar char) (ascii : byte.toNat < 128) :
    char = Char.ofNat byte.toNat := by
  have same : byte.toNat = char.toNat := by
    simp only [utf8EncodeChar, Char.toNat_val] at member
    split_ifs at member with one two three
    all_goals
      simp only [mem_cons, not_mem_nil, or_false] at member
      rcases member with rfl | rfl | rfl | rfl <;> simp at ascii ⊢ <;> omega
  rw [same, Char.ofNat_toNat]

theorem encode_escaped_char :
    (escape [char]).flatMap utf8EncodeChar = (utf8EncodeChar char).flatMap escapeByte := by
  by_cases quoted : char = quote
  · subst quoted
    decide
  by_cases slashed : char = backslash
  · subst slashed
    decide
  have plain : ∀ byte ∈ utf8EncodeChar char, escapeByte byte = [byte] := by
    intro byte member
    apply if_neg
    rintro (rfl | rfl)
    · exact quoted (eq_ofNat_of_mem_utf8EncodeChar member (by decide))
    · exact slashed (eq_ofNat_of_mem_utf8EncodeChar member (by decide))
  have kept : (utf8EncodeChar char).flatMap escapeByte = utf8EncodeChar char := by
    rw [flatMap_congr plain, flatMap_singleton']
  simp [escape, replace, quoted, slashed, kept]

theorem encode_displayString (text : String) :
    encode (displayString text) = 39 :: ((encode text).flatMap escapeByte ++ [39]) := by
  have body : (escape text.toList).flatMap utf8EncodeChar = (encode text).flatMap escapeByte := by
    rw [encode, flatMap_assoc, ← flatMap_congr fun char _ => encode_escaped_char]
    simp only [escape, replace, flatMap_assoc, flatMap_singleton]
  rw [encode, displayString, String.toList_ofList, flatMap_cons, flatMap_append, body]
  rfl

/-! ## Reading the display back -/

def ordinary (byte : UInt8) : Bool := byte ∉ ([92, 39] : Bytes)

theorem ordinary_eq_true_iff : ordinary byte = true ↔ ¬(byte = 39 ∨ byte = 92) := by
  simp [ordinary, or_comm]

/-- The ordinary bytes a text begins with stand as they are in its escaped form. -/
theorem span_escaped (bytes rest : Bytes) :
    (bytes.flatMap escapeByte ++ 39 :: rest).takeWhile ordinary = bytes.takeWhile ordinary ∧
      (bytes.flatMap escapeByte ++ 39 :: rest).dropWhile ordinary =
        (bytes.dropWhile ordinary).flatMap escapeByte ++ 39 :: rest := by
  have stops : ordinary 39 = false := by decide
  induction bytes with
  | nil => simp [stops]
  | cons first bytes inner =>
      by_cases special : first = 39 ∨ first = 92
      · have refused : ordinary first = false := by
          rw [← Bool.not_eq_true, ordinary_eq_true_iff]
          exact not_not_intro special
        simp [escapeByte, special, refused]
      · have accepted := ordinary_eq_true_iff.mpr special
        simpa [escapeByte, special, accepted] using inner

theorem piece_ordinary {input : Bytes} (begins : input.takeWhile ordinary ≠ []) :
    piece "'" [92, 39] input = some (input.takeWhile ordinary, input.dropWhile ordinary) := by
  change Option.orElse (takeWhile1 ordinary input) _ = _
  rw [takeWhile1, if_neg begins]
  rfl

section

variable {rest : Bytes} (unquoted : rest.head? ≠ some 39)

include unquoted

/-- A lone quote is no piece of the text. -/
theorem piece_end : piece "'" [92, 39] (39 :: rest) = none := by
  cases rest with
  | nil => rfl
  | cons next rest =>
      have apart : ((39 : UInt8) == next) = false := by
        rw [beq_eq_false_iff_ne]
        rintro rfl
        exact unquoted rfl
      have doubled : (do tag "'"; tag "'"; pure (encode "'") : Parser Bytes)
          (39 :: next :: rest) = none := by
        change ((([39] : Bytes).isPrefixOf? (next :: rest)).map _).bind _ = none
        simp [isPrefixOf?, apart]
      change Option.orElse _ _ = _
      rw [doubled]
      rfl

/-- Escaped bytes are read back piece by piece. -/
theorem foldMany0_piece (bytes acc : Bytes) :
    foldMany0 (piece "'" [92, 39]) (· ++ ·) acc (bytes.flatMap escapeByte ++ 39 :: rest) =
      some (acc ++ bytes, 39 :: rest) := by
  -- the run of ordinary bytes is taken as one piece, so the induction is on the length
  induction length : bytes.length using Nat.strong_induction_on generalizing bytes acc with
  | _ count inner =>
    match bytes with
    | [] =>
        rw [append_nil, flatMap_nil, nil_append, foldMany0, piece_end unquoted]
    | first :: bytes =>
        by_cases special : first = 39 ∨ first = 92
        · have takes (after : Bytes) :
              piece "'" [92, 39] (first :: first :: after) = some ([first], after) := by
            rcases special with rfl | rfl <;> rfl
          have escaped : (first :: bytes).flatMap escapeByte ++ 39 :: rest =
              first :: first :: (bytes.flatMap escapeByte ++ 39 :: rest) := by
            simp [escapeByte, special]
          rw [escaped, foldMany0_some (takes _) (by simp),
            inner bytes.length (by simp [← length]) bytes _ rfl, append_assoc, singleton_append]
        · have begins : (first :: bytes).takeWhile ordinary ≠ [] := by
            rw [takeWhile_cons_of_pos (ordinary_eq_true_iff.mpr special)]
            exact cons_ne_nil _ _
          obtain ⟨taken, left⟩ := span_escaped (first :: bytes) rest
          have beginsEscaped := taken ▸ begins
          have takes := piece_ordinary beginsEscaped
          rw [foldMany0_some takes (length_dropWhile_lt beginsEscaped), taken, left,
            inner _ (length ▸ length_dropWhile_lt begins) _ _ rfl, append_assoc,
            takeWhile_append_dropWhile]

theorem rawStringSingleQuoted_escaped (bytes : Bytes) :
    rawStringSingleQuoted (39 :: (bytes.flatMap escapeByte ++ 39 :: rest)) =
      some (bytes, rest) := by
  change Option.bind (foldMany0 _ _ [] _) _ = _
  rw [foldMany0_piece unquoted, nil_append]
  rfl

theorem stringLiteral_escaped (dialect : Dialect) (bytes : Bytes) :
    dialect.stringLiteral (39 :: (bytes.flatMap escapeByte ++ 39 :: rest)) =
      some (bytes, rest) := by
  have read := rawStringSingleQuoted_escaped unquoted bytes
  cases dialect with
  | postgreSQL => exact read
  | mySQL =>
      change Option.orElse (rawStringSingleQuoted _) _ = _
      rw [read]
      rfl

end

/-- Every alternative looks at the first byte, and none accepts a quote there. -/
theorem simpleLiteral_quote (dialect : Dialect) (rest : Bytes) :
    simpleLiteral conv dialect (39 :: rest) = none := by
  cases dialect <;> rfl

theorem ofBytes_encode {text : String} : ofBytes (encode text) = .string text := by
  have encoded : (encode text).toByteArray = text.toByteArray := String.utf8Encode_toList
  have read : String.fromUTF8? text.toByteArray = some text := dif_pos text.isValidUTF8
  rw [ofBytes, encoded, read]

/-- The displayed form of any string, before any text that does not begin with a
quote, is read as that string, and nothing more is taken. -/
theorem literal_displayString (dialect : Dialect) (text : String) {rest : Bytes}
    (unquoted : rest.head? ≠ some 39) :
    literal conv dialect (encode (displayString text) ++ rest) = some (.string text, rest) := by
  rw [encode_displayString, cons_append, append_assoc, singleton_append]
  change Option.orElse (simpleLiteral conv dialect _) (fun _ =>
    Option.orElse (Option.bind (dialect.stringLiteral _) _) _) = _
  rw [simpleLiteral_quote, stringLiteral_escaped unquoted, ← ofBytes_encode]
  rfl

theorem closing_text_read_back :
    ((encode " OR 1").head? ≠ some 39) ∧
      literal ⟨fun _ => none, fun _ => none, fun _ => none, some, fun _ => []⟩ .mySQL
        (encode (displayString "\\' OR '1") ++ encode " OR 1") =
          some (.string "\\' OR '1", encode " OR 1") :=
  ⟨by decide, literal_displayString _ .mySQL _ (by decide)⟩

end ReadySet.NomSql
