import ReadySet.Library.Codec
import ReadySet.Library.Machine

/-!
Owns the messages of a Postgres client and how `psql-srv` decodes them. The codec
has a start-up flag: while it is set, only start-up messages and requests for SSL
are decoded (`decode_starting`), and afterwards only the other ones.

Strings are their bytes. The table of Postgres types and the formats of values
are parameters (`Types`).
-/

namespace ReadySet.PsqlSrv

open Library

inductive TransferFormat where
  | text
  | binary
  deriving DecidableEq, Repr

inductive StatementName where
  | portal (name : Bytes)
  | preparedStatement (name : Bytes)
  deriving DecidableEq, Repr

inductive FrontendMessage (Ty Value : Type) where
  | bind (portalName preparedStatementName : Bytes) (params : List Value)
      (resultTransferFormats : List TransferFormat)
  | close (name : StatementName)
  | describe (name : StatementName)
  | execute (portalName : Bytes) (limit : Int)
  | parse (preparedStatementName query : Bytes) (parameterDataTypes : List Ty)
  | passwordMessage (password : Bytes)
  | query (query : Bytes)
  | sslRequest
  | startupMessage (protocolVersion : Int) (user database : Option Bytes)
  | sync
  | flush
  | terminate

def FrontendMessage.IsStartUp {Ty Value : Type} : FrontendMessage Ty Value → Prop
  | .sslRequest => True
  | .startupMessage .. => True
  | _ => False

inductive DecodeError where
  | encodingError
  | incorrectParameterCount (count : Nat)
  | invalidFormat (format : Int)
  | invalidInteger
  | invalidType (oid : Nat)
  | ioError (message : String)
  | unknownPreparedStatement (name : Bytes)
  | unexpectedMessageEnd
  | unexpectedValue (value : UInt8)
  | unsupportedMessage (id : UInt8)
  /-- The errors about the value of a parameter. -/
  | value (message : String)
  deriving DecidableEq, Repr

/-- How decoding ends without a message. -/
inductive Stop where
  | decode (error : DecodeError)
  | panicked
  deriving DecidableEq, Repr

/-- Reads from the front of a message. -/
abbrev Parser := StateT Bytes (Except Stop)

/-- The types of Postgres and the formats of their values. -/
structure Types (Ty Value : Type) where
  fromOid : Nat → Option Ty
  oid : Ty → Nat
  /-- `get_binary_value` and `get_text_value`. -/
  getValue : TransferFormat → Ty → Parser Value

/-! ## Fields of messages -/

def fail {α : Type} (error : DecodeError) : Parser α := fun _ => .error (.decode error)

def getU8 : Parser UInt8
  | [] => .error (.decode .unexpectedMessageEnd)
  | byte :: rest => .ok (byte, rest)

/-- A big-endian number in two's complement. -/
def signedBigEndian (bytes : Bytes) : Int :=
  let number := ofLittleEndian bytes.reverse
  if 2 * number < 256 ^ bytes.length then number else number - 256 ^ bytes.length

/-- A signed number of some bytes. -/
def getInt (width : Nat) (missing : Stop) : Parser Int := fun src =>
  if width ≤ src.length then .ok (signedBigEndian (src.take width), src.drop width)
  else .error missing

def getI16 : Parser Int := getInt 2 (.decode .unexpectedMessageEnd)

def getI32 : Parser Int := getInt 4 (.decode .unexpectedMessageEnd)

/-- The unchecked `get_i16` of a buffer. -/
def uncheckedGetI16 : Parser Int := getInt 2 .panicked

def getStr : Parser Bytes := fun src =>
  match src.dropWhile (fun byte => byte ≠ 0) with
  | [] => .error (.decode .unexpectedMessageEnd)
  | _ :: rest =>
    let text := src.takeWhile (fun byte => byte ≠ 0)
    if ByteArray.validateUTF8 ⟨text.toArray⟩ then .ok (text, rest)
    else .error (.decode .encodingError)

def getFormat : Parser TransferFormat := do
  let format ← getI16
  if format = 0 then return .text
  else if format = 1 then return .binary
  else fail (.invalidFormat format)

/-- `(0..count).map(..).collect()`. -/
def getMany {α : Type} (count : Int) (get : Parser α) : Parser (List α) :=
  (List.replicate count.toNat ()).mapM fun _ => get

/-- `usize::try_from` of a signed number. -/
def toUsize (number : Int) : Parser Nat :=
  if number < 0 then fail .invalidInteger else return number.toNat

theorem length_getStr_lt {src rest text : Bytes} (got : getStr src = .ok (text, rest)) :
    rest.length < src.length := by
  have part : (src.dropWhile fun byte => byte ≠ 0).length ≤ src.length :=
    (List.dropWhile_suffix _).length_le
  rw [getStr] at got
  rcases dropped : src.dropWhile (fun byte => byte ≠ 0) with _ | ⟨_, others⟩
  · rw [dropped] at got
    cases got
  · rw [dropped, List.length_cons] at part
    rw [dropped] at got
    dsimp only at got
    split at got
    · obtain ⟨_, rfl⟩ := ok_pair_inj got
      omega
    · cases got

section

variable {Ty Value : Type}

/-! ## Start-up -/

def sslRequestCode : Int := 80877103

def userParameter : Bytes := "user".toUTF8.data.toList

def databaseParameter : Bytes := "database".toUTF8.data.toList

def startupParameters (user database : Option Bytes) (msg : Bytes) :
    Except Stop ((Option Bytes × Option Bytes) × Bytes) :=
  match gotKey : getStr msg with
  | .error stop => .error stop
  | .ok (key, rest) =>
    have _shorter := length_getStr_lt gotKey
    if key = [] then .ok ((user, database), rest)
    else
      match gotValue : getStr rest with
      | .error stop => .error stop
      | .ok (val, rest) =>
        have _shorter := length_getStr_lt gotValue
        if key = userParameter then startupParameters (some val) database rest
        else if key = databaseParameter then startupParameters user (some val) rest
        else startupParameters user database rest
termination_by msg.length

/-- A message while the connection starts up. -/
def decodeStartUp : Parser (FrontendMessage Ty Value) := do
  let _length ← getI32
  let token ← getI32
  if token = sslRequestCode then return .sslRequest
  else
    let (user, database) ← startupParameters none none
    return .startupMessage token user database

/-! ## Other messages -/

structure Codec (Ty : Type) where
  isStartingUp : Bool
  statementParamTypes : Bytes → Option (List Ty)

def Codec.new : Codec Ty where
  isStartingUp := true
  statementParamTypes _ := none

/-- One format for each of some values: none stands for text, and one for all. -/
def spreadFormats (formats : List TransferFormat) (count : Nat) : Option (List TransferFormat) :=
  match formats with
  | [] => some (List.replicate count .text)
  | [format] => some (List.replicate count format)
  | formats => if formats.length = count then some formats else none

def decodeBind (types : Types Ty Value) (codec : Codec Ty) : Parser (FrontendMessage Ty Value) := do
  let portalName ← getStr
  let preparedStatementName ← getStr
  let formats ← getMany (← getI16) getFormat
  match codec.statementParamTypes preparedStatementName with
  | none => fail (.unknownPreparedStatement preparedStatementName)
  | some paramTypes =>
    let count ← toUsize (← getI16)
    if count ≠ paramTypes.length then fail (.incorrectParameterCount count)
    else
      match spreadFormats formats count with
      | none => fail (.incorrectParameterCount count)
      | some formats =>
        let params ← (paramTypes.zip formats).mapM fun entry => types.getValue entry.2 entry.1
        let resultFormats ← getMany (← uncheckedGetI16) getFormat
        return .bind portalName preparedStatementName params resultFormats

/-- The name in a message about a portal or a prepared statement. -/
def getStatementName : Parser StatementName := do
  let statementType ← getU8
  let name ← getStr
  if statementType = 'P'.toUInt8 then return .portal name
  else if statementType = 'S'.toUInt8 then return .preparedStatement name
  else fail (.unexpectedValue statementType)

def getType (types : Types Ty Value) : Parser Ty := do
  let oid ← toUsize (← getI32)
  match types.fromOid oid with
  | some type => return type
  | none => fail (.invalidType oid)

/-- A message after the start of the connection. The error about an unknown kind
of message is returned after the check for bytes that are left. -/
def decodeMessage (types : Types Ty Value) (codec : Codec Ty) :
    Parser (Except DecodeError (FrontendMessage Ty Value)) := do
  let id ← getU8
  let _length ← getI32
  if id = 'p'.toUInt8 then return .ok (.passwordMessage (← getStr))
  else if id = 'B'.toUInt8 then return .ok (← decodeBind types codec)
  else if id = 'C'.toUInt8 then return .ok (.close (← getStatementName))
  else if id = 'D'.toUInt8 then return .ok (.describe (← getStatementName))
  else if id = 'E'.toUInt8 then
    let portalName ← getStr
    return .ok (.execute portalName (← getI32))
  else if id = 'P'.toUInt8 then
    let preparedStatementName ← getStr
    let query ← getStr
    let parameterDataTypes ← getMany (← getI16) (getType types)
    return .ok (.parse preparedStatementName query parameterDataTypes)
  else if id = 'Q'.toUInt8 then return .ok (.query (← getStr))
  else if id = 'S'.toUInt8 then return .ok .sync
  else if id = 'H'.toUInt8 then return .ok .flush
  else if id = 'X'.toUInt8 then return .ok .terminate
  else return .error (.unsupportedMessage id)

/-! ## Decoding -/

def headerLength : Nat := 5

/-- The whole of a message is used up. -/
def complete (parsed : Except Stop (Except DecodeError (FrontendMessage Ty Value) × Bytes)) :
    Except Stop (FrontendMessage Ty Value) :=
  match parsed with
  | .error stop => .error stop
  | .ok (ret, rest) =>
    if rest.length > 0 then .error (.decode .unexpectedMessageEnd)
    else
      match ret with
      | .ok message => .ok message
      | .error error => .error (.decode error)

/-- `Codec::decode`: what is left of the buffer, and a message, or none when it is
not complete yet. -/
def Codec.decode (types : Types Ty Value) (codec : Codec Ty) (src : Bytes) :
    Bytes × Except Stop (Option (FrontendMessage Ty Value)) :=
  if src.length < headerLength then (src, .ok none)
  else
    let length := signedBigEndian
      (if codec.isStartingUp then src.take 4 else (src.drop 1).take 4)
    if length < 0 then (src, .error (.decode .invalidInteger))
    else
      let messageLength := if codec.isStartingUp then length.toNat else length.toNat + 1
      if src.length < messageLength then (src, .ok none)
      else
        let msg := src.take messageLength
        (src.drop messageLength,
          if codec.isStartingUp then
            (complete ((decodeStartUp.run msg).map fun result => (.ok result.1, result.2))).map some
          else (complete ((decodeMessage types codec).run msg)).map some)

theorem run_bind_ok {α β : Type} {first : Parser α} {next : α → Parser β} {src : Bytes}
    {result : β × Bytes} (ran : (first >>= next).run src = .ok result) :
    ∃ value rest, first.run src = .ok (value, rest) ∧ (next value).run rest = .ok result := by
  rw [StateT.run_bind] at ran
  obtain ⟨⟨value, rest⟩, begun, later⟩ := bind_eq_ok.mp ran
  exact ⟨value, rest, begun, later⟩

variable {message : FrontendMessage Ty Value}

theorem decodeStartUp_isStartUp {msg rest : Bytes}
    (parsed : decodeStartUp.run msg = .ok (message, rest)) : message.IsStartUp := by
  obtain ⟨_, _, _, parsed⟩ := run_bind_ok parsed
  obtain ⟨token, _, _, parsed⟩ := run_bind_ok parsed
  split_ifs at parsed
  · obtain ⟨rfl, _⟩ := ok_pair_inj parsed
    trivial
  · obtain ⟨_, _, _, parsed⟩ := run_bind_ok parsed
    obtain ⟨rfl, _⟩ := ok_pair_inj parsed
    trivial

theorem complete_eq_ok {parsed : Except Stop (Except DecodeError (FrontendMessage Ty Value) × Bytes)}
    (completed : complete parsed = .ok message) : ∃ rest, parsed = .ok (.ok message, rest) := by
  rcases parsed with stop | ⟨ret, rest⟩
  · cases completed
  · dsimp only [complete] at completed
    split_ifs at completed
    rcases ret with error | found
    · cases completed
    · obtain rfl := Except.ok.inj completed
      exact ⟨rest, rfl⟩

theorem decode_starting {types : Types Ty Value} {codec : Codec Ty} {src rest : Bytes}
    (starting : codec.isStartingUp = true)
    (decoded : codec.decode types src = (rest, .ok (some message))) : message.IsStartUp := by
  simp only [Codec.decode] at decoded
  split at decoded
  · cases (Prod.mk.inj decoded).2
  split at decoded
  · cases (Prod.mk.inj decoded).2
  split at decoded
  · cases (Prod.mk.inj decoded).2
  obtain ⟨_, completed, same⟩ := map_eq_ok.mp (Prod.mk.inj decoded).2
  obtain rfl := Option.some.inj same
  obtain ⟨_, parsed⟩ := complete_eq_ok completed
  obtain ⟨result, ran, same⟩ := map_eq_ok.mp parsed
  obtain rfl := Except.ok.inj (Prod.mk.inj same).1
  exact decodeStartUp_isStartUp ran

end

end ReadySet.PsqlSrv
