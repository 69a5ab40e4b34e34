import ReadySet.Library.Effects
import ReadySet.Library.Parser
import ReadySet.PsqlSrv.Codec

/-!
Owns a connection of a Postgres client: the states of `Protocol`, how it answers
the messages of the client with calls of the backend, and the loop of `Runner`
that reads messages from a byte stream and sends the answers.

A connection keeps a log of the calls of its backend and of the messages it
sends. The backend is any type with functions for the calls, which may fail, and
sending may fail after any number of messages.

Does not own the encoding of messages to the client and the rows of results.
-/

namespace ReadySet.PsqlSrv

open Library

/-! ## Errors and answers -/

inductive EncodeError where
  | ioError (message : String)
  deriving DecidableEq, Repr

inductive Error (Ty Value : Type) where
  | authenticationFailure (user : Bytes)
  | decodeError (error : DecodeError)
  | encodeError (error : EncodeError)
  | incorrectFormatCount (count : Nat)
  | internalError (message : String)
  | invalidInteger
  | ioError (message : String)
  | missingPortal (name : Bytes)
  | missingPreparedStatement (name : Bytes)
  | parseError (message : String)
  | unimplemented (message : String)
  | unknown (message : String)
  | unsupported (message : String)
  | unsupportedMessage (message : FrontendMessage Ty Value)
  | unsupportedType (type : Ty)
  | postgresError (code : Option String) (message : String)

inductive SqlState where
  | invalidPassword
  | ioError
  | internalError
  | datatypeMismatch
  | undefinedPstatement
  | invalidPstatementDefinition
  | featureNotSupported
  | code (code : String)
  deriving DecidableEq, Repr

structure Column (Ty : Type) where
  name : String
  colType : Ty

structure FieldDescription (Ty : Type) where
  fieldName : String
  tableId : Int
  colId : Int
  dataType : Ty
  dataTypeSize : Int
  typeModifier : Int
  transferFormat : TransferFormat

inductive CommandCompleteTag where
  | delete (rows : Nat)
  | empty
  | insert (rows : Nat)
  | select (rows : Nat)
  | update (rows : Nat)
  deriving DecidableEq, Repr

/-- A row that comes as text from the upstream database. -/
structure SimpleQueryRow where
  fields : List String
  values : List (Option String)

inductive SimpleQueryMessage where
  | row (row : SimpleQueryRow)
  | commandComplete (fields : Option (List String)) (tag : Bytes)
  /-- The other kinds of messages. -/
  | other

inductive BackendMessage (Ty Row : Type) where
  | authenticationCleartextPassword
  | authenticationOk
  | bindComplete
  | closeComplete
  | commandComplete (tag : CommandCompleteTag)
  | passThroughCommandComplete (tag : Bytes)
  | dataRow (values : Row) (explicitTransferFormats : Option (List TransferFormat))
  | errorResponse (sqlstate : SqlState) (message : String)
  | parameterDescription (parameterDataTypes : List Ty)
  | parameterStatus (parameterName parameterValue : String)
  | parseComplete
  | readyForQuery (status : UInt8)
  | rowDescription (fieldDescriptions : List (FieldDescription Ty))
  | passThroughRowDescription (fields : List String)
  | passThroughDataRow (row : SimpleQueryRow)
  | sslResponse (byte : UInt8)

inductive Response (Ty Row : Type) where
  | empty
  | message (message : BackendMessage Ty Row)
  | messages (messages : List (BackendMessage Ty Row))
  | select (header : Option (BackendMessage Ty Row)) (resultset : List Row)
      (resultTransferFormats : Option (List TransferFormat))
      (trailer : Option (BackendMessage Ty Row))

/-- The messages that `Response::write` sends. -/
def Response.written {Ty Row : Type} : Response Ty Row → List (BackendMessage Ty Row)
  | .empty => []
  | .message answer => [answer]
  | .messages answers => answers
  | .select header resultset formats trailer =>
    header.toList ++ resultset.map (fun row => .dataRow row formats) ++
      [.commandComplete (.select resultset.length)] ++ trailer.toList

/-! ## Backends -/

inductive CredentialsNeeded where
  | none
  | cleartext
  deriving DecidableEq, Repr

structure PrepareResponse (Ty : Type) where
  preparedStatementId : Nat
  paramSchema : List Ty
  rowSchema : List (Column Ty)

inductive QueryResponse (Ty Row : Type) where
  | select (schema : List (Column Ty)) (resultset : List Row)
  | insert (rows : Nat)
  | update (rows : Nat)
  | delete (rows : Nat)
  | command
  | simpleQuery (messages : List SimpleQueryMessage)

/-- A backend with a state: every call changes the state and may fail. -/
structure Backend (Ty Value Row σ : Type) where
  version : σ → String
  onInit : Bytes → σ → Except (Error Ty Value) CredentialsNeeded × σ
  onAuth : Bytes → Bytes → σ → Except (Error Ty Value) Unit × σ
  onQuery : Bytes → σ → Except (Error Ty Value) (QueryResponse Ty Row) × σ
  onPrepare : Bytes → σ → Except (Error Ty Value) (PrepareResponse Ty) × σ
  onExecute : Nat → List Value → σ → Except (Error Ty Value) (QueryResponse Ty Row) × σ
  onClose : Nat → σ → Except (Error Ty Value) Unit × σ

/-- What a connection does: calls of its backend, and messages to the client. -/
inductive Event (Ty Value Row : Type) where
  | onInit (database : Bytes) (result : Except (Error Ty Value) CredentialsNeeded)
  | onAuth (user password : Bytes) (result : Except (Error Ty Value) Unit)
  | onQuery (query : Bytes)
  | onPrepare (query : Bytes)
  | onExecute (preparedStatementId : Nat) (params : List Value)
  | onClose (preparedStatementId : Nat)
  | sent (message : BackendMessage Ty Row)

/-! ## Connections -/

inductive State where
  | startingUp
  | authenticating (user : Bytes)
  | ready
  | extended
  | error
  deriving DecidableEq, Repr

structure PreparedStatementData (Ty : Type) where
  preparedStatementId : Nat
  paramSchema : List Ty
  rowSchema : List (Column Ty)

structure PortalData (Value : Type) where
  preparedStatementId : Nat
  preparedStatementName : Bytes
  params : List Value
  resultTransferFormats : List TransferFormat

structure Protocol (Ty Value : Type) where
  state : State
  preparedStatements : Bytes → Option (PreparedStatementData Ty)
  portals : Bytes → Option (PortalData Value)
  extendedTypes : List (Nat × Int)

def Protocol.new {Ty Value : Type} : Protocol Ty Value where
  state := .startingUp
  preparedStatements _ := none
  portals _ := none
  extendedTypes := []

/-- The protocol, the codec of its channel, the backend, and what has been done.
The number of outputs tells which of them fail. -/
structure Connection (Ty Value Row σ : Type) where
  protocol : Protocol Ty Value
  codec : Codec Ty
  backend : σ
  outputs : Nat
  log : List (Event Ty Value Row)

/-- What a connection depends on. -/
structure Environment (Ty Value Row σ : Type) where
  types : Types Ty Value
  backend : Backend Ty Value Row σ
  /-- The sizes of types that `make_field_description` knows. -/
  dataTypeSize : Ty → Option Int
  /-- How an error reads. -/
  display : Error Ty Value → String
  /-- Which outputs fail, and after how many messages. -/
  outputFails : Nat → Option (Nat × EncodeError)

section

variable {Ty Value Row σ : Type}

abbrev Program (Ty Value Row σ : Type) :=
  Effect (Error Ty Value) (Connection Ty Value Row σ)

/-- A call of the backend, which is logged with its result. -/
def callBackend {α : Type} (change : σ → Except (Error Ty Value) α × σ)
    (event : Except (Error Ty Value) α → Event Ty Value Row) : Program Ty Value Row σ α :=
  Effect.call fun connection =>
    let result := change connection.backend
    (result.1, { connection with
      backend := result.2
      log := connection.log ++ [event result.1] })

def setState (state : State) : Program Ty Value Row σ PUnit :=
  modify fun connection => { connection with
    protocol := { connection.protocol with state := state } }

/-- `ok_or` of a missing value. -/
def required {α : Type} (value : Option α) (error : Error Ty Value) : Program Ty Value Row σ α :=
  match value with
  | some value => pure value
  | none => throw error

/-! ## Field descriptions -/

/-- `load_extended_types`: the types in the answer to a query. The last row of an
oid is the one that is found. -/
def extendedTypesOf (response : QueryResponse Ty Row) : Except (Error Ty Value) (List (Nat × Int)) :=
  let err (message : String) : Error Ty Value :=
    .internalError ("failed while loading extended type information: " ++ message)
  match response with
  | .simpleQuery messages => do
      let types ← (messages.filterMap fun message => match message with
        | .row row => some row
        | _ => none).mapM fun row =>
          match row.values with
          | some oid :: some typlen :: _ =>
            match parseUnsigned 32 oid, parseSigned 16 typlen with
            | none, _ => .error (err "could not parse oid")
            | some _, none => .error (err "could not parse typlen")
            | some oid, some typlen => .ok (oid, typlen)
          | _ => .error (err "wrong number of columns returned from upstream")
      return types.reverse
  | _ => .error (err "wrong query response type")

def typesQuery : Bytes := "select oid, typlen from pg_catalog.pg_type".toUTF8.data.toList

variable (env : Environment Ty Value Row σ)

def onQuery (query : Bytes) : Program Ty Value Row σ (QueryResponse Ty Row) :=
  callBackend (env.backend.onQuery query) fun _ => .onQuery query

def loadExtendedTypes : Program Ty Value Row σ (List (Nat × Int)) := do
  let response ← onQuery env typesQuery
  match extendedTypesOf response with
  | .ok types => return types
  | .error error => throw error

def ensureExtendedTypes : Program Ty Value Row σ PUnit := do
  if (← get).protocol.extendedTypes.isEmpty then
    let types ← loadExtendedTypes env
    modify fun connection => { connection with
      protocol := { connection.protocol with extendedTypes := types } }
  else pure ⟨⟩

def dataTypeSize (type : Ty) : Program Ty Value Row σ Int :=
  match env.dataTypeSize type with
  | some size => pure size
  | none => do
      ensureExtendedTypes env
      let connection ← get
      required (connection.protocol.extendedTypes.lookup (env.types.oid type))
        (.unsupportedType type)

def makeFieldDescription (col : Column Ty) (transferFormat : TransferFormat) :
    Program Ty Value Row σ (FieldDescription Ty) := do
  let dataTypeSize ← dataTypeSize env col.colType
  return {
    fieldName := col.name
    tableId := 0
    colId := 0
    dataType := col.colType
    dataTypeSize := dataTypeSize
    typeModifier := -1
    transferFormat := transferFormat }

/-! ## Messages of a client -/

def readyForQueryIdle : BackendMessage Ty Row := .readyForQuery 'I'.toUInt8

/-- The messages that tell a client that its connection is ready. -/
def getReadyMessage (version : String) : List (BackendMessage Ty Row) :=
  [.authenticationOk,
    .parameterStatus "client_encoding" "UTF8",
    .parameterStatus "DateStyle" "ISO",
    .parameterStatus "TimeZone" "UTC",
    .parameterStatus "standard_conforming_strings" "on",
    .parameterStatus "server_version" version,
    readyForQueryIdle]

/-- The messages and the state after `on_init`. -/
def onCredentialsNeeded (user : Option Bytes) :
    CredentialsNeeded → Program Ty Value Row σ (List (BackendMessage Ty Row))
  | .none => do
      setState .ready
      return getReadyMessage (env.backend.version (← get).backend)
  | .cleartext => do
      let user ← required user (.authenticationFailure [])
      setState (.authenticating user)
      return [.authenticationCleartextPassword]

def onStartupMessage (user database : Option Bytes) : Program Ty Value Row σ (Response Ty Row) := do
  let database ← required database (.unsupported "database is required")
  let needed ← callBackend (env.backend.onInit database) (.onInit database)
  let response ← onCredentialsNeeded env user needed
  modify fun connection => { connection with
    codec := { connection.codec with isStartingUp := false } }
  return .messages response

def onPasswordMessage (user password : Bytes) : Program Ty Value Row σ (Response Ty Row) := do
  callBackend (env.backend.onAuth user password) (.onAuth user password)
  setState .ready
  return .messages (getReadyMessage (env.backend.version (← get).backend))

def onBind (portalName preparedStatementName : Bytes) (params : List Value)
    (formats : List TransferFormat) : Program Ty Value Row σ (Response Ty Row) := do
  let statement ← required ((← get).protocol.preparedStatements preparedStatementName)
    (.missingPreparedStatement preparedStatementName)
  let formats ← required (spreadFormats formats statement.rowSchema.length)
    (.incorrectFormatCount statement.rowSchema.length)
  modify fun connection => { connection with
    protocol := { connection.protocol with
      portals := Function.update connection.protocol.portals portalName (some {
        preparedStatementId := statement.preparedStatementId
        preparedStatementName := preparedStatementName
        params := params
        resultTransferFormats := formats }) } }
  return .message .bindComplete

def onClose : StatementName → Program Ty Value Row σ (Response Ty Row)
  | .portal name => do
      modify fun connection => { connection with
        protocol := { connection.protocol with
          portals := Function.update connection.protocol.portals name none } }
      return .message .closeComplete
  | .preparedStatement name => do
      match (← get).protocol.preparedStatements name with
      | some statement =>
        callBackend (env.backend.onClose statement.preparedStatementId)
          fun _ => .onClose statement.preparedStatementId
        modify fun connection => { connection with
          codec := { connection.codec with
            statementParamTypes :=
              Function.update connection.codec.statementParamTypes name none }
          protocol := { connection.protocol with
            preparedStatements :=
              Function.update connection.protocol.preparedStatements name none } }
        return .message .closeComplete
      | none => return .message .closeComplete

def onDescribe : StatementName → Program Ty Value Row σ (Response Ty Row)
  | .portal name => do
      let portal ← required ((← get).protocol.portals name) (.missingPortal name)
      let statement ← required
        ((← get).protocol.preparedStatements portal.preparedStatementName)
        (.internalError "missing prepared statement")
      let fieldDescriptions ← (statement.rowSchema.zip portal.resultTransferFormats).mapM
        fun entry => makeFieldDescription env entry.1 entry.2
      return .message (.rowDescription fieldDescriptions)
  | .preparedStatement name => do
      let statement ← required ((← get).protocol.preparedStatements name)
        (.missingPreparedStatement name)
      let fieldDescriptions ← statement.rowSchema.mapM
        fun column => makeFieldDescription env column .text
      return .messages [.parameterDescription statement.paramSchema,
        .rowDescription fieldDescriptions]

/-- The answer to an execution. -/
def executeResponse (formats : List TransferFormat) :
    QueryResponse Ty Row → Program Ty Value Row σ (Response Ty Row)
  | .select _ resultset => return .select none resultset (some formats) none
  | .insert rows => return .message (.commandComplete (.insert rows))
  | .update rows => return .message (.commandComplete (.update rows))
  | .delete rows => return .message (.commandComplete (.delete rows))
  | .command => return .message (.commandComplete .empty)
  | .simpleQuery _ => throw (.internalError "Received SimpleQuery response for Execute")

def onExecute (portalName : Bytes) : Program Ty Value Row σ (Response Ty Row) := do
  setState .extended
  let portal ← required ((← get).protocol.portals portalName)
    (.missingPreparedStatement portalName)
  let response ← callBackend (env.backend.onExecute portal.preparedStatementId portal.params)
    fun _ => .onExecute portal.preparedStatementId portal.params
  let answer ← executeResponse portal.resultTransferFormats response
  setState .ready
  return answer

/-- The messages about the answer of the upstream database to a query. -/
def simpleQueryMessages : Bool → List SimpleQueryMessage →
    Except (Error Ty Value) (List (BackendMessage Ty Row))
  | _, [] => .ok []
  | processingSelect, .row row :: messages => do
      let others ← simpleQueryMessages true messages
      return (if processingSelect then [] else [.passThroughRowDescription row.fields]) ++
        .passThroughDataRow row :: others
  | _, .commandComplete fields tag :: messages => do
      let others ← simpleQueryMessages false messages
      return (fields.map .passThroughRowDescription).toList ++
        .passThroughCommandComplete tag :: others
  | _, .other :: _ => .error (.internalError "Unexpected SimpleQuery message variant")

def onQueryMessage (query : Bytes) : Program Ty Value Row σ (Response Ty Row) := do
  match ← onQuery env query with
  | .select schema resultset =>
    let fieldDescriptions ← schema.mapM fun column => makeFieldDescription env column .text
    return .select (some (.rowDescription fieldDescriptions)) resultset none
      (some readyForQueryIdle)
  | .simpleQuery messages =>
    let answers : Except (Error Ty Value) (List (BackendMessage Ty Row)) :=
      simpleQueryMessages false messages
    match answers with
    | .ok answers => return .messages (answers ++ [readyForQueryIdle])
    | .error error => throw error
  | .insert rows => return .messages [.commandComplete (.insert rows), readyForQueryIdle]
  | .update rows => return .messages [.commandComplete (.update rows), readyForQueryIdle]
  | .delete rows => return .messages [.commandComplete (.delete rows), readyForQueryIdle]
  | .command => return .messages [.commandComplete .empty, readyForQueryIdle]

def onParse (preparedStatementName query : Bytes) : Program Ty Value Row σ (Response Ty Row) := do
  let response ← callBackend (env.backend.onPrepare query) fun _ => .onPrepare query
  modify fun connection => { connection with
    codec := { connection.codec with
      statementParamTypes := Function.update connection.codec.statementParamTypes
        preparedStatementName (some response.paramSchema) }
    protocol := { connection.protocol with
      preparedStatements := Function.update connection.protocol.preparedStatements
        preparedStatementName (some {
          preparedStatementId := response.preparedStatementId
          paramSchema := response.paramSchema
          rowSchema := response.rowSchema }) } }
  return .message .parseComplete

/-- A message in the states after the start of a connection. -/
def onMessage : FrontendMessage Ty Value → Program Ty Value Row σ (Response Ty Row)
  | .bind portalName preparedStatementName params formats =>
    onBind portalName preparedStatementName params formats
  | .close name => onClose env name
  | .describe name => onDescribe env name
  | .execute portalName _ => onExecute env portalName
  | .query query => onQueryMessage env query
  | .parse preparedStatementName query _ => onParse env preparedStatementName query
  | .sync => do
      setState .ready
      return .message readyForQueryIdle
  | .flush => return .empty
  | .terminate => return .empty
  | message => throw (.unsupportedMessage message)

def onRequest (message : FrontendMessage Ty Value) : Program Ty Value Row σ (Response Ty Row) := do
  match (← get).protocol.state with
  | .startingUp =>
    match message with
    | .sslRequest => return .message (.sslResponse 'N'.toUInt8)
    | .startupMessage _ user database => onStartupMessage env user database
    | message => throw (.unsupportedMessage message)
  | .authenticating user =>
    match message with
    | .passwordMessage password => onPasswordMessage env user password
    | message => throw (.unsupportedMessage message)
  | _ => onMessage env message

def sqlStateOf : Error Ty Value → SqlState
  | .authenticationFailure _ => .invalidPassword
  | .decodeError _ => .ioError
  | .encodeError _ => .ioError
  | .incorrectFormatCount _ => .ioError
  | .internalError _ => .internalError
  | .invalidInteger => .datatypeMismatch
  | .ioError _ => .ioError
  | .missingPortal _ => .undefinedPstatement
  | .missingPreparedStatement _ => .undefinedPstatement
  | .parseError _ => .invalidPstatementDefinition
  | .unimplemented _ => .featureNotSupported
  | .unknown _ => .internalError
  | .unsupported _ => .featureNotSupported
  | .unsupportedMessage _ => .featureNotSupported
  | .unsupportedType _ => .featureNotSupported
  | .postgresError code _ => (code.map SqlState.code).getD .internalError

def makeErrorResponse (error : Error Ty Value) : BackendMessage Ty Row :=
  .errorResponse (sqlStateOf error) (env.display error)

def onError (error : Error Ty Value) : Program Ty Value Row σ (Response Ty Row) := do
  match (← get).protocol.state with
  | .startingUp => do
      setState .error
      return .message (makeErrorResponse env error)
  | .extended => do
      setState .error
      return .message (makeErrorResponse env error)
  | _ => return .messages [makeErrorResponse env error, readyForQueryIdle]

/-! ## Loop -/

/-- `Channel::send`, which may fail after some messages. -/
def send (messages : List (BackendMessage Ty Row)) : Program Ty Value Row σ PUnit :=
  Effect.call fun connection =>
    match env.outputFails connection.outputs with
    | none => (.ok ⟨⟩, { connection with
        outputs := connection.outputs + 1
        log := connection.log ++ messages.map .sent })
    | some (count, error) => (.error (.encodeError error), { connection with
        outputs := connection.outputs + 1
        log := connection.log ++ (messages.take count).map .sent })

/-- Flushes the channel for the message that asks for it. -/
def flushFor : FrontendMessage Ty Value → Program Ty Value Row σ PUnit
  | .flush => send env []
  | _ => pure ⟨⟩

def handleRequest : Except DecodeError (FrontendMessage Ty Value) → Program Ty Value Row σ PUnit
  | .error error => throw (.decodeError error)
  | .ok request => do
      flushFor env request
      let response ← onRequest env request
      send env response.written

def handleError (error : Error Ty Value) : Program Ty Value Row σ PUnit := do
  let response ← onError env error
  send env response.written

/-- One message of the loop of `Runner::run`. -/
def handle (request : Except DecodeError (FrontendMessage Ty Value))
    (connection : Connection Ty Value Row σ) : Connection Ty Value Row σ :=
  match (handleRequest env request).after connection with
  | (.ok _, connection) => connection
  | (.error error, connection) => ((handleError env error).after connection).2

/-- `Framed::next`: a message, an error or the end of the stream, then the bytes
that have been read and not decoded, and the pieces that are still to come. -/
def nextMessage (types : Types Ty Value) (codec : Codec Ty) : Bytes → List Bytes →
    Option (Except Stop (FrontendMessage Ty Value)) × Bytes × List Bytes
  | buffer, [] =>
    match codec.decode types buffer with
    | (rest, .ok (some message)) => (some (.ok message), rest, [])
    | (rest, .error stop) => (some (.error stop), rest, [])
    | (rest, .ok none) =>
      if rest.isEmpty then (none, rest, [])
      else (some (.error (.decode (.ioError "bytes remaining on stream"))), rest, [])
  | buffer, piece :: pieces =>
    match codec.decode types buffer with
    | (rest, .ok (some message)) => (some (.ok message), rest, piece :: pieces)
    | (rest, .error stop) => (some (.error stop), rest, piece :: pieces)
    | (rest, .ok none) => nextMessage types codec (rest ++ piece) pieces

/-- The loop of `Runner::run`, for a number of messages at most. A panic ends it,
and so does an undecodable message if the stream does not resume after errors. -/
def run (resumes : Bool) : Nat → Bytes → List Bytes → Connection Ty Value Row σ →
    Connection Ty Value Row σ
  | 0, _, _, connection => connection
  | count + 1, buffer, pieces, connection =>
    match nextMessage env.types connection.codec buffer pieces with
    | (none, _, _) => connection
    | (some (.error .panicked), _, _) => connection
    | (some (.error (.decode error)), buffer, pieces) =>
      let connection := handle env (.error error) connection
      if resumes then run resumes count buffer pieces connection else connection
    | (some (.ok message), buffer, pieces) =>
      run resumes count buffer pieces (handle env (.ok message) connection)

def Connection.new (backend : σ) : Connection Ty Value Row σ where
  protocol := Protocol.new
  codec := Codec.new
  backend := backend
  outputs := 0
  log := []

end

end ReadySet.PsqlSrv
