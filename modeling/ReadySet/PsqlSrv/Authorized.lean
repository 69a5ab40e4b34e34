import ReadySet.Library.Machine
import ReadySet.PsqlSrv.Protocol

/-!
Owns that a client has to be authorized: before a connection calls its backend
for a query, or tells the client that it is authenticated, the backend has said
that no credentials are needed or has accepted them (`run_safe`).

The state of the protocol alone does not show it, since an error at the start
leads to the state `error`, which accepts queries. But then the codec still has
its start-up flag and decodes no queries (`Unauthenticated`). Once the client is
authorized, it is enough that everything else only adds to the log.
-/

namespace ReadySet.PsqlSrv

open Library Effect List

section

variable {Ty Value Row : Type}

/-! ## Logs -/

/-- The backend lets the client in. -/
def Event.Authorizes : Event Ty Value Row → Prop
  | .onInit _ (.ok .none) => True
  | .onAuth _ _ (.ok _) => True
  | _ => False

/-- What a client must be let in for. -/
def Event.Guarded : Event Ty Value Row → Prop
  | .onQuery _ => True
  | .onPrepare _ => True
  | .onExecute _ _ => True
  | .onClose _ => True
  | .sent .authenticationOk => True
  | _ => False

def Authorized (log : List (Event Ty Value Row)) : Prop := ∃ event ∈ log, event.Authorizes

/-- Everything that is guarded comes after the client was let in. -/
def Safe (log : List (Event Ty Value Row)) : Prop :=
  EveryStep (fun earlier event => event.Guarded → Authorized earlier) log

variable {log events : List (Event Ty Value Row)}

theorem Authorized.append (authorized : Authorized log) : Authorized (log ++ events) := by
  obtain ⟨event, mem, authorizes⟩ := authorized
  exact ⟨event, mem_append_left _ mem, authorizes⟩

theorem Safe.append (safe : Safe log)
    (guarded : Authorized log ∨ ∀ event ∈ events, ¬event.Guarded) : Safe (log ++ events) := by
  induction events using reverseRecOn with
  | nil => rwa [append_nil]
  | append_singleton events event ih =>
    rw [← append_assoc]
    refine everyStep_concat.mpr ⟨ih (guarded.imp_right fun none event mem =>
      none event (mem_append_left _ mem)), fun isGuarded => ?_⟩
    rcases guarded with authorized | none
    · exact authorized.append
    · exact absurd isGuarded (none event (mem_append_right _ mem_cons_self))

end

section

variable {Ty Value Row σ : Type}

/-! ## Programs add to the log -/

/-- The log goes on from an earlier one. -/
def Extends (before : List (Event Ty Value Row)) (connection : Connection Ty Value Row σ) : Prop :=
  before <+: connection.log

variable {env : Environment Ty Value Row σ} {before : List (Event Ty Value Row)} {α : Type}
  {change : σ → Except (Error Ty Value) α × σ} {message : FrontendMessage Ty Value}
  {name : StatementName}

theorem keeps_callBackend {event : Except (Error Ty Value) α → Event Ty Value Row} :
    Effect.Keeps (Extends before) (callBackend change event) :=
  fun _ goesOn => goesOn.trans (prefix_append _ _)

theorem keeps_setState (state : State) :
    Effect.Keeps (Extends before) (setState state : Program Ty Value Row σ PUnit) :=
  keeps_modify fun _ goesOn => goesOn

theorem keeps_required {value : Option α} {error : Error Ty Value} :
    Effect.Keeps (Extends before) (required value error : Program Ty Value Row σ α) := by
  cases value with
  | none => exact keeps_throw error
  | some value => exact keeps_pure value

theorem keeps_loadExtendedTypes : Effect.Keeps (Extends before) (loadExtendedTypes env) := by
  refine keeps_bind (keeps_callBackend) fun response => ?_
  split
  · exact keeps_pure _
  · exact keeps_throw _

theorem keeps_ensureExtendedTypes : Effect.Keeps (Extends before) (ensureExtendedTypes env) := by
  refine keeps_bind keeps_get fun conn => ?_
  split
  · exact keeps_bind keeps_loadExtendedTypes fun _ =>
      keeps_modify fun _ goesOn => goesOn
  · exact keeps_pure _

theorem keeps_makeFieldDescription {col : Column Ty} {transferFormat : TransferFormat} :
    Effect.Keeps (Extends before) (makeFieldDescription env col transferFormat) := by
  refine keeps_bind ?_ fun _ => keeps_pure _
  rw [dataTypeSize]
  split
  · exact keeps_pure _
  · refine keeps_bind keeps_ensureExtendedTypes fun _ => ?_
    exact keeps_bind keeps_get fun _ => keeps_required

theorem keeps_onCredentialsNeeded (user : Option Bytes) (needed : CredentialsNeeded) :
    Effect.Keeps (Extends before) (onCredentialsNeeded env user needed) := by
  cases needed with
  | none =>
    refine keeps_bind (keeps_setState _) fun _ => ?_
    exact keeps_bind keeps_get fun _ => keeps_pure _
  | cleartext =>
    refine keeps_bind (keeps_required) fun user => ?_
    exact keeps_bind (keeps_setState _) fun _ => keeps_pure _

theorem keeps_onStartupMessage (user database : Option Bytes) :
    Effect.Keeps (Extends before) (onStartupMessage env user database) := by
  refine keeps_bind (keeps_required) fun database => ?_
  refine keeps_bind (keeps_callBackend) fun needed => ?_
  refine keeps_bind (keeps_onCredentialsNeeded user needed) fun response => ?_
  exact keeps_bind (keeps_modify fun _ goesOn => goesOn) fun _ => keeps_pure _

theorem keeps_onPasswordMessage (user password : Bytes) :
    Effect.Keeps (Extends before) (onPasswordMessage env user password) := by
  refine keeps_bind (keeps_callBackend) fun _ => ?_
  refine keeps_bind (keeps_setState _) fun _ => ?_
  exact keeps_bind keeps_get fun _ => keeps_pure _

theorem keeps_onBind (portalName preparedStatementName : Bytes) {params : List Value}
    {formats : List TransferFormat} : Effect.Keeps (Extends before)
      (onBind portalName preparedStatementName params formats : Program Ty Value Row σ _) := by
  refine keeps_bind keeps_get fun _ => ?_
  refine keeps_bind (keeps_required) fun _ => ?_
  refine keeps_bind (keeps_required) fun _ => ?_
  exact keeps_bind (keeps_modify fun _ goesOn => goesOn) fun _ => keeps_pure _

theorem keeps_onClose : Effect.Keeps (Extends before) (onClose env name) := by
  cases name with
  | portal name =>
    exact keeps_bind (keeps_modify fun _ goesOn => goesOn) fun _ =>
      keeps_pure _
  | preparedStatement name =>
    refine keeps_bind keeps_get fun conn => ?_
    split
    · refine keeps_bind (keeps_callBackend) fun _ => ?_
      exact keeps_bind (keeps_modify fun _ goesOn => goesOn) fun _ =>
        keeps_pure _
    · exact keeps_pure _

theorem keeps_onDescribe : Effect.Keeps (Extends before) (onDescribe env name) := by
  cases name with
  | portal name =>
    refine keeps_bind keeps_get fun _ => ?_
    refine keeps_bind (keeps_required) fun portal => ?_
    refine keeps_bind keeps_get fun _ => ?_
    refine keeps_bind (keeps_required) fun statement => ?_
    refine keeps_bind (keeps_mapM (fun _ => ?_) _) fun _ => keeps_pure _
    exact keeps_makeFieldDescription
  | preparedStatement name =>
    refine keeps_bind keeps_get fun _ => ?_
    refine keeps_bind (keeps_required) fun statement => ?_
    refine keeps_bind (keeps_mapM (fun _ => ?_) _) fun _ => keeps_pure _
    exact keeps_makeFieldDescription

theorem keeps_onExecute {portalName : Bytes} :
    Effect.Keeps (Extends before) (onExecute env portalName) := by
  refine keeps_bind (keeps_setState _) fun _ => ?_
  refine keeps_bind keeps_get fun _ => ?_
  refine keeps_bind (keeps_required) fun portal => ?_
  refine keeps_bind (keeps_callBackend) fun response => ?_
  refine keeps_bind ?_ fun _ => keeps_bind (keeps_setState _) fun _ =>
    keeps_pure _
  cases response with
  | select schema resultset | insert rows | update rows | delete rows => exact keeps_pure _
  | command => exact keeps_pure _
  | simpleQuery messages => exact keeps_throw _

theorem keeps_onQueryMessage {query : Bytes} :
    Effect.Keeps (Extends before) (onQueryMessage env query) := by
  refine keeps_bind (keeps_callBackend) fun response => ?_
  cases response with
  | select schema resultset =>
    refine keeps_bind (keeps_mapM (fun _ => ?_) _) fun _ => keeps_pure _
    exact keeps_makeFieldDescription
  | insert rows | update rows | delete rows | command => exact keeps_pure _
  | simpleQuery messages =>
    dsimp only
    split
    · exact keeps_pure _
    · exact keeps_throw _

theorem keeps_onParse (preparedStatementName query : Bytes) :
    Effect.Keeps (Extends before) (onParse env preparedStatementName query) := by
  refine keeps_bind (keeps_callBackend) fun _ => ?_
  exact keeps_bind (keeps_modify fun _ goesOn => goesOn) fun _ => keeps_pure _

theorem keeps_onMessage : Effect.Keeps (Extends before) (onMessage env message) := by
  cases message with
  | bind portalName preparedStatementName params formats => exact keeps_onBind _ _
  | close name => exact keeps_onClose
  | describe name => exact keeps_onDescribe
  | execute portalName limit => exact keeps_onExecute
  | query query => exact keeps_onQueryMessage
  | parse preparedStatementName query types => exact keeps_onParse _ _
  | sync => exact keeps_bind (keeps_setState _) fun _ => keeps_pure _
  | flush | terminate => exact keeps_pure _
  | passwordMessage password | sslRequest => exact keeps_throw _
  | startupMessage version user database => exact keeps_throw _

theorem keeps_onRequest : Effect.Keeps (Extends before) (onRequest env message) := by
  refine keeps_bind keeps_get fun conn => ?_
  split
  · split
    · exact keeps_pure _
    · exact keeps_onStartupMessage _ _
    · exact keeps_throw _
  · split
    · exact keeps_onPasswordMessage _ _
    · exact keeps_throw _
  · exact keeps_onMessage

/-! ## The invariant of a connection -/

/-- The client has not been let in: it is asked for its password, or the codec
decodes start-up messages only. -/
def Unauthenticated (connection : Connection Ty Value Row σ) : Prop :=
  (∃ user, connection.protocol.state = .authenticating user) ∨
    connection.codec.isStartingUp = true ∧
      (connection.protocol.state = .startingUp ∨ connection.protocol.state = .error)

structure Sound (connection : Connection Ty Value Row σ) : Prop where
  safe : Safe connection.log
  admitted : Authorized connection.log ∨ Unauthenticated connection

variable {conn : Connection Ty Value Row σ}
  {later : Connection Ty Value Row σ} {messages : List (BackendMessage Ty Row)}

theorem Authorized.of_extends (authorized : Authorized before) (goesOn : Extends before later) :
    Authorized later.log := by
  obtain ⟨events, same⟩ := goesOn
  exact same ▸ authorized.append

theorem sound_of_authorized (safe : Safe before) (authorized : Authorized before)
    (goesOn : Extends before later) : Sound later := by
  refine ⟨?_, .inl (authorized.of_extends goesOn)⟩
  obtain ⟨events, same⟩ := goesOn
  exact same ▸ safe.append (.inl authorized)

theorem guarded_sent_iff {message : BackendMessage Ty Row} :
    (Event.sent message : Event Ty Value Row).Guarded ↔ message = .authenticationOk := by
  constructor
  · intro guarded
    cases message with
    | authenticationOk => rfl
    | _ => exact guarded.elim
  · rintro rfl
    trivial

/-- Answers are sent that do not say that the client is authenticated, or the
client has been let in. -/
def Allowed (connection : Connection Ty Value Row σ) (messages : List (BackendMessage Ty Row)) :
    Prop :=
  Authorized connection.log ∨ ∀ message ∈ messages, message ≠ .authenticationOk

theorem after_send (messages : List (BackendMessage Ty Row)) :
    (send env messages).after conn =
      match env.outputFails conn.outputs with
      | none => (.ok ⟨⟩, { conn with
          outputs := conn.outputs + 1
          log := conn.log ++ messages.map .sent })
      | some (count, error) => (.error (.encodeError error), { conn with
          outputs := conn.outputs + 1
          log := conn.log ++ (messages.take count).map .sent }) :=
  rfl

theorem Sound.send (sound : Sound conn)
    (allowed : Allowed conn messages) : Sound ((send env messages).after conn).2 := by
  have sends : ∀ {sent : List (BackendMessage Ty Row)} {outputs : Nat}, sent ⊆ messages →
      Sound { conn with
        outputs := outputs
        log := conn.log ++ sent.map .sent } := by
    intro sent outputs part
    refine ⟨sound.safe.append ?_, sound.admitted.imp_left Authorized.append⟩
    refine allowed.imp_right fun none event mem guarded => ?_
    obtain ⟨message, sent, rfl⟩ := mem_map.mp mem
    exact none message (part sent) (guarded_sent_iff.mp guarded)
  rcases fails : env.outputFails conn.outputs with _ | ⟨count, error⟩
  · rw [after_send, fails]
    exact sends (Subset.refl _)
  · rw [after_send, fails]
    exact sends (take_subset _ _)

theorem Sound.call (sound : Sound conn) {event : Event Ty Value Row}
    (unguarded : ¬event.Guarded) (state : σ) :
    Sound { conn with backend := state, log := conn.log ++ [event] } := by
  refine ⟨sound.safe.append (.inr fun other mem => ?_), sound.admitted.imp_left Authorized.append⟩
  exact mem_singleton.mp mem ▸ unguarded

theorem after_callBackend
    (event : Except (Error Ty Value) α → Event Ty Value Row) {result : Except (Error Ty Value) α}
    {state : σ} (answer : change conn.backend = (result, state)) :
    (callBackend change event).after conn =
      (result, { conn with backend := state, log := conn.log ++ [event result] }) := by
  have ran : (callBackend change event).after conn = ((change conn.backend).1, { conn with
        backend := (change conn.backend).2
        log := conn.log ++ [event (change conn.backend).1] }) := rfl
  rw [ran, answer]

/-- A request keeps a connection sound, and its answer is allowed. -/
def Answers (program : Program Ty Value Row σ (Response Ty Row))
    (connection : Connection Ty Value Row σ) : Prop :=
  Sound (program.after connection).2 ∧ ∀ response, (program.after connection).1 = .ok response →
    Allowed (program.after connection).2 response.written

theorem answers_throw (sound : Sound conn) (error : Error Ty Value) : Answers (throw error) conn :=
  ⟨sound, fun _ failed => nomatch failed⟩

variable {program : Program Ty Value Row σ (Response Ty Row)}

theorem answers_of_authorized (safe : Safe before) (authorized : Authorized before)
    (goesOn : Extends before (program.after conn).2) : Answers program conn :=
  ⟨sound_of_authorized safe authorized goesOn, fun _ _ => .inl (authorized.of_extends goesOn)⟩

theorem answers_of_error {error : Error Ty Value}
    (ran : program.after conn = (.error error, later)) (sound : Sound later) :
    Answers program conn := by
  rw [Answers, ran]
  exact ⟨sound, fun _ failed => nomatch failed⟩

theorem answers_of_ok {response : Response Ty Row}
    (ran : program.after conn = (.ok response, later)) (sound : Sound later)
    (allowed : Allowed later response.written) : Answers program conn := by
  rw [Answers, ran]
  refine ⟨sound, fun other same => ?_⟩
  obtain rfl := Except.ok.inj same
  exact allowed

/-- A start-up message is answered soundly. -/
theorem answers_onStartupMessage {user database : Option Bytes} (sound : Sound conn) :
    Answers (onStartupMessage env user database) conn := by
  rcases database with _ | database
  · exact answers_throw sound _
  have given : (required (some database) (.unsupported "database is required") :
      Program Ty Value Row σ Bytes).after conn = (.ok database, conn) := rfl
  rcases answer : env.backend.onInit database conn.backend with ⟨problem | needed, state⟩
  · have called := after_callBackend (.onInit database) answer
    have failed : (onStartupMessage env user (some database)).after conn =
        (.error problem, { conn with
          backend := state
          log := conn.log ++ [.onInit database (.error problem)] }) := by
      rw [onStartupMessage, after_bind_ok given]
      exact after_bind_error called
    exact answers_of_error failed (sound.call id state)
  have called := after_callBackend (.onInit database) answer
  cases needed with
  | none =>
    -- The client is let in.
    have authorized : Authorized (conn.log ++ [.onInit database (.ok .none)]) :=
      ⟨_, mem_append_right _ mem_cons_self, trivial⟩
    refine answers_of_authorized (sound.call id state).safe authorized ?_
    rw [onStartupMessage, after_bind_ok given, after_bind_ok called]
    refine keeps_bind (keeps_onCredentialsNeeded user _) (fun _ => ?_) _ (prefix_refl _)
    exact keeps_bind (keeps_modify fun _ goesOn => goesOn) fun _ =>
      keeps_pure _
  | cleartext =>
    have soundCall : Sound { conn with
        backend := state
        log := conn.log ++ [.onInit database (.ok .cleartext)] } := sound.call id state
    rcases user with _ | user
    · have failed : (onStartupMessage env none (some database)).after conn =
          (.error (.authenticationFailure []), { conn with
            backend := state
            log := conn.log ++ [.onInit database (.ok .cleartext)] }) := by
        rw [onStartupMessage, after_bind_ok given, after_bind_ok called]
        rfl
      exact answers_of_error failed soundCall
    · have asks : (onStartupMessage env (some user) (some database)).after conn =
          (.ok (.messages [.authenticationCleartextPassword]), { conn with
            protocol := { conn.protocol with state := .authenticating user }
            codec := { conn.codec with isStartingUp := false }
            backend := state
            log := conn.log ++ [.onInit database (.ok .cleartext)] }) := by
        rw [onStartupMessage, after_bind_ok given, after_bind_ok called]
        rfl
      refine answers_of_ok asks ⟨soundCall.safe, .inr (.inl ⟨user, rfl⟩)⟩
        (.inr fun message mem => ?_)
      rw [mem_singleton.mp mem]
      exact nofun

theorem answers_onPasswordMessage {user password : Bytes} (sound : Sound conn) :
    Answers (onPasswordMessage env user password) conn := by
  rcases answer : env.backend.onAuth user password conn.backend with ⟨problem | _, state⟩
  · have called := after_callBackend (.onAuth user password) answer
    exact answers_of_error (after_bind_error called) (sound.call id state)
  · have called := after_callBackend (.onAuth user password) answer
    have authorized : Authorized (conn.log ++ [.onAuth user password (.ok ())]) :=
      ⟨_, mem_append_right _ mem_cons_self, trivial⟩
    refine answers_of_authorized (sound.call id state).safe authorized ?_
    rw [onPasswordMessage, after_bind_ok called]
    refine keeps_bind (keeps_setState _) (fun _ => ?_) _ (prefix_refl _)
    exact keeps_bind keeps_get fun _ => keeps_pure _

theorem answers_getState
    {program : Connection Ty Value Row σ → Program Ty Value Row σ (Response Ty Row)}
    (answers : Answers (program conn) conn) : Answers (get >>= program) conn := by
  exact answers

/-- So is a request of a client. -/
theorem answers_onRequest (sound : Sound conn)
    (decoded : conn.codec.isStartingUp = true → message.IsStartUp) :
    Answers (onRequest env message) conn := by
  rcases sound.admitted with authorized | ⟨user, state⟩ | ⟨starting, state⟩
  · exact answers_of_authorized sound.safe authorized (keeps_onRequest conn (prefix_refl _))
  · refine answers_getState ?_
    simp only [state]
    split
    · exact answers_onPasswordMessage sound
    · exact answers_throw sound _
  -- The codec decodes start-up messages only, and the state `error` rejects them.
  · refine answers_getState ?_
    have isStartUp := decoded starting
    rcases state with state | state
    · simp only [state]
      split
      · refine answers_of_ok rfl sound (.inr fun message mem => ?_)
        rw [mem_singleton.mp mem]
        exact nofun
      · exact answers_onStartupMessage sound
      · exact answers_throw sound _
    · simp only [state]
      cases message with
      | sslRequest | startupMessage version user database => exact answers_throw sound _
      | _ => exact isStartUp.elim

theorem Answers.send (answers : Answers program conn) :
    Sound ((program >>= fun response => PsqlSrv.send env response.written).after conn).2 := by
  rcases ran : program.after conn with ⟨error | response, later⟩
  · rw [Answers, ran] at answers
    rw [after_bind_error ran]
    exact answers.1
  · rw [Answers, ran] at answers
    rw [after_bind_ok ran]
    exact answers.1.send (answers.2 response rfl)

variable (sound : Sound conn)
include sound

theorem Sound.flushFor (message : FrontendMessage Ty Value) :
    Sound ((flushFor env message).after conn).2 ∧
      ((PsqlSrv.flushFor env message).after conn).2.codec = conn.codec := by
  cases message with
  | flush =>
    refine ⟨sound.send (.inr fun _ mem => absurd mem not_mem_nil), ?_⟩
    rcases fails : env.outputFails conn.outputs with _ | ⟨count, error⟩ <;>
      rw [PsqlSrv.flushFor, after_send, fails]
  | _ => exact ⟨sound, rfl⟩

theorem Sound.request (decoded : conn.codec.isStartingUp = true → message.IsStartUp) :
    Sound ((handleRequest env (.ok message)).after conn).2 := by
  have flushed : Sound ((PsqlSrv.flushFor env message).after conn).2 ∧ _ := sound.flushFor message
  rw [handleRequest]
  rcases ran : (PsqlSrv.flushFor env message).after conn with ⟨error | _, later⟩
  · rw [ran] at flushed
    rw [after_bind_error ran]
    exact flushed.1
  · rw [ran] at flushed
    rw [after_bind_ok ran]
    refine Answers.send (answers_onRequest flushed.1 fun starting => ?_)
    rw [flushed.2] at starting
    exact decoded starting

/-- So is an error. -/
theorem answers_onError {error : Error Ty Value} : Answers (onError env error) conn := by
  have unguarded : ∀ messages : List (BackendMessage Ty Row),
      messages ⊆ [makeErrorResponse env error, readyForQueryIdle] →
        ∀ message ∈ messages, message ≠ .authenticationOk := by
    intro messages part message mem
    rcases mem_cons.mp (part mem) with rfl | mem
    · exact nofun
    · rw [mem_singleton.mp mem]
      exact nofun
  have single : ([makeErrorResponse env error] : List (BackendMessage Ty Row)) ⊆
      [makeErrorResponse env error, readyForQueryIdle] := cons_subset_cons _ (nil_subset _)
  refine answers_getState ?_
  rcases state : conn.protocol.state with _ | user | _ | _ | _
  · refine answers_of_ok rfl ⟨sound.safe, sound.admitted.imp_right ?_⟩ (.inr (unguarded _ single))
    rintro (⟨user, other⟩ | ⟨starting, _⟩)
    · cases state.symm.trans other
    · exact .inr ⟨starting, .inr rfl⟩
  · exact answers_of_ok rfl sound (.inr (unguarded _ (Subset.refl _)))
  · exact answers_of_ok rfl sound (.inr (unguarded _ (Subset.refl _)))
  · refine answers_of_ok rfl ⟨sound.safe, sound.admitted.imp_right ?_⟩ (.inr (unguarded _ single))
    rintro (⟨user, other⟩ | ⟨_, other | other⟩) <;> cases state.symm.trans other
  · exact answers_of_ok rfl sound (.inr (unguarded _ (Subset.refl _)))

theorem Sound.error (error : Error Ty Value) : Sound ((handleError env error).after conn).2 :=
  Answers.send (answers_onError sound)

theorem Sound.handle {request : Except DecodeError (FrontendMessage Ty Value)}
    (decoded : ∀ message, request = .ok message → conn.codec.isStartingUp = true →
      message.IsStartUp) : Sound (handle env request conn) := by
  have requested : Sound ((handleRequest env request).after conn).2 := by
    rcases request with error | message
    · exact sound
    · exact sound.request (decoded message rfl)
  rw [PsqlSrv.handle]
  rcases ran : (handleRequest env request).after conn with ⟨error | _, later⟩
  · rw [ran] at requested
    exact requested.error error
  · rw [ran] at requested
    exact requested

omit sound

/-! ## Runs -/

theorem nextMessage_starting {types : Types Ty Value} {codec : Codec Ty} {buffer : Bytes}
    {pieces : List Bytes} {rest : Bytes × List Bytes}
    (found : nextMessage types codec buffer pieces = (some (.ok message), rest))
    (starting : codec.isStartingUp = true) : message.IsStartUp := by
  fun_induction nextMessage types codec buffer pieces with
  | case1 _ _ _ decoded | case5 _ _ _ _ _ decoded =>
    obtain rfl := Except.ok.inj (Option.some.inj (Prod.mk.inj found).1)
    exact decode_starting starting decoded
  | case2 | case3 | case4 | case6 => cases found
  | case7 _ _ _ _ _ ih => exact ih found

/-- The loop keeps the log sound. -/
theorem Sound.run (sound : Sound conn) (resumes : Bool) (count : Nat) (buffer : Bytes)
    (pieces : List Bytes) : Sound (run env resumes count buffer pieces conn) := by
  induction count generalizing conn buffer pieces with
  | zero => exact sound
  | succ count ih =>
    rw [PsqlSrv.run]
    rcases next : nextMessage env.types conn.codec buffer pieces with
      ⟨_ | ⟨error | _⟩ | message, rest, others⟩
    · exact sound
    · have handled : Sound (PsqlSrv.handle env (.error error) conn) :=
        sound.handle fun _ absent => nomatch absent
      dsimp only
      split
      · exact ih handled _ _
      · exact handled
    · exact sound
    · have handled : Sound (PsqlSrv.handle env (.ok message) conn) := by
        refine sound.handle fun other same => ?_
        obtain rfl := Except.ok.inj same
        exact nextMessage_starting next
      exact ih handled _ _

theorem sound_new {backend : σ} : Sound (Connection.new backend : Connection Ty Value Row σ) where
  safe := everyStep_nil
  admitted := .inr (.inr ⟨rfl, .inl rfl⟩)

/-- Whatever a client sends, in whatever pieces, and whatever the backend answers,
a connection makes no guarded call and does not tell the client that it is
authenticated, unless the backend has let the client in before. -/
theorem run_safe (env : Environment Ty Value Row σ) (resumes : Bool) (count : Nat)
    (pieces : List Bytes) (backend : σ) :
    Safe (run env resumes count [] pieces (Connection.new backend)).log :=
  ((sound_new).run resumes count [] pieces).safe

end

end ReadySet.PsqlSrv
