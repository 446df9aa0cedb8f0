/-
The server's side of SASL on one connection (the `SaslHandshake` and
`SaslAuthenticate` branches of `process_request` in `src/server/handler.rs`).
-/
import Bifrox.Lib.Run
import Bifrox.Sasl.Scram

namespace Bifrox.Sasl

open Run ScramCredentials

structure ScramSession where
  channelBound : Bool
  username : Text
  mechanism : ScramMechanism
  clientFirstBare : Text
  serverFirstMessage : Text
  combinedNonce : Text
deriving DecidableEq

structure Connection where
  principal : Text
  scramSession : Option ScramSession
  negotiatedScramMechanism : Option ScramMechanism
  negotiatedScramIsPlus : Bool

def Connection.accepted (principal : Text) : Connection where
  principal := principal
  scramSession := none
  negotiatedScramMechanism := none
  negotiatedScramIsPlus := false

structure Broker where
  saslMechanisms : List Text
  tlsChannelBinding : Option Bytes
  authToken : Option Text

def addPlusVariant (mechanisms : List Text) (base : Text) : List Text :=
  if mechanisms.any (fun m => Text.eqIgnoreAsciiCase m base) &&
      !mechanisms.any (fun m => Text.eqIgnoreAsciiCase m (base ++ "-PLUS".toList)) then
    mechanisms ++ [base ++ "-PLUS".toList]
  else mechanisms

def Broker.advertisedSaslMechanisms (broker : Broker) : List Text :=
  if broker.tlsChannelBinding.isSome then
    ["SCRAM-SHA-256".toList, "SCRAM-SHA-512".toList].foldl addPlusVariant broker.saslMechanisms
  else broker.saslMechanisms

def Broker.supports (broker : Broker) (mechanism : Text) : Bool :=
  broker.advertisedSaslMechanisms.any fun m => Text.eqIgnoreAsciiCase m mechanism

/-! ## Requests -/

/-- Bytes that are not UTF-8 are `none`. -/
inductive SaslRequest where
  | saslHandshake (mechanism : Text)
  | saslAuthenticate (authText : Option Text)

/-- A request with the credentials stored when it is handled and the random bytes it
draws, if the generator does not fail. -/
structure SaslInput where
  request : SaslRequest
  credentials : ScramCredentials
  random : Option Bytes

structure SaslAuthResponse where
  errorCode : Int16
  errorMessage : Text
  authText : Option Text
  sessionLifetimeMs : Int64

def SaslAuthResponse.success (authText : Text) : SaslAuthResponse where
  errorCode := 0
  errorMessage := []
  authText := some authText
  sessionLifetimeMs := 0

def SaslAuthResponse.failure : SaslAuthResponse where
  errorCode := 58
  errorMessage := "SASL Authentication Failed".toList
  authText := some []
  sessionLifetimeMs := 0

def userPrincipal (username : Text) : Text := "User:".toList ++ username

namespace Connection

def fail (c : Connection) : Connection × SaslAuthResponse :=
  ({ c with scramSession := none }, .failure)

def succeed (c : Connection) (username authText : Text) : Connection × SaslAuthResponse :=
  ({ c with principal := userPrincipal username, scramSession := none }, .success authText)

def session (c : Connection) (first : ScramClientFirst) (credential : ScramCredential)
    (random : Bytes) : ScramSession :=
  let combinedNonce := first.clientNonce ++ hexEncode random
  { channelBound := c.negotiatedScramIsPlus
    username := first.username
    mechanism := credential.mechanism
    clientFirstBare := first.clientFirstBare
    serverFirstMessage := Sasl.serverFirstMessage combinedNonce credential
    combinedNonce := combinedNonce }

def challenge (c : Connection) (session : ScramSession) : Connection × SaslAuthResponse :=
  ({ c with scramSession := some session }, .success session.serverFirstMessage)

def clientFirstReceived (c : Connection) (credentials : ScramCredentials) (random : Option Bytes)
    (authText : Text) : Connection × SaslAuthResponse :=
  match parseScramClientFirst authText with
  | none => c.fail
  | some first =>
    match credentials.lookup first.username c.negotiatedScramMechanism with
    | none => c.fail
    | some credential =>
      match random with
      | none => c.fail
      | some random => c.challenge (c.session first credential random)

def expectedBinding (broker : Broker) (session : ScramSession) : Option Bytes :=
  if session.channelBound then broker.tlsChannelBinding else none

variable (prims : Primitives)

/-- The checks of a client-final message against the exchange it ends. -/
def finalVerifies (broker : Broker) (session : ScramSession)
    (credential : ScramCredential) (final : ScramClientFinal) : Bool :=
  verifyChannelBinding final.channelBinding (expectedBinding broker session) &&
    (final.nonce == session.combinedNonce && credential.verifyClientProof prims
        (authMessage session.clientFirstBare session.serverFirstMessage final.withoutProof)
        final.proof)

def clientFinalReceived (broker : Broker) (c : Connection)
    (credentials : ScramCredentials) (authText : Text) : Connection × SaslAuthResponse :=
  match c.scramSession with
  | none => c.fail
  | some session =>
    match credentials.lookup session.username (some session.mechanism) with
    | none => c.fail
    | some credential =>
      match parseScramClientFinal authText with
      | none => c.fail
      | some final =>
        if finalVerifies prims broker session credential final then
          c.succeed session.username (credential.buildServerFinal prims
            (authMessage session.clientFirstBare session.serverFirstMessage final.withoutProof))
        else c.fail

/-- The check of a user name and password, which a token may stand for. -/
def plainVerifies (broker : Broker) (c : Connection)
    (credentials : ScramCredentials) (username password : Text) : Bool :=
  match credentials.lookup username c.negotiatedScramMechanism with
  | some credential => credential.verifyPassword prims password
  | none =>
    match broker.authToken with
    | some token => token == password || token == username
    | none => false

def plainReceived (broker : Broker) (c : Connection)
    (credentials : ScramCredentials) (authText : Text) : Connection × SaslAuthResponse :=
  let (username, password) := parsePlainAuth authText
  if c.plainVerifies prims broker credentials username password then c.succeed username []
  else c.fail

def saslAuthenticate (prims : Primitives) (broker : Broker) (c : Connection)
    (credentials : ScramCredentials) (random : Option Bytes) (authText : Option Text) :
    Connection × SaslAuthResponse :=
  match authText with
  | none => c.fail
  | some authText =>
    if isScramClientFirst authText then c.clientFirstReceived credentials random authText
    else if isScramClientFinal authText then
      c.clientFinalReceived prims broker credentials authText
    else c.plainReceived prims broker credentials authText

/-- Answer a handshake: the error code and the mechanisms on offer.  The mechanism is
remembered, but not whether it was a `-PLUS` one. -/
def saslHandshake (broker : Broker) (c : Connection) (mechanism : Text) :
    Connection × Int16 × List Text :=
  if broker.supports mechanism then
    ({ c with negotiatedScramMechanism := ScramMechanism.fromStr mechanism },
      0, broker.advertisedSaslMechanisms)
  else (c, 33, broker.advertisedSaslMechanisms)

def handle (prims : Primitives) (broker : Broker) (c : Connection) (input : SaslInput) :
    Connection :=
  match input.request with
  | .saslHandshake mechanism => (c.saslHandshake broker mechanism).1
  | .saslAuthenticate authText =>
    (c.saslAuthenticate prims broker input.credentials input.random authText).1

end Connection

/-! ## What a request can do -/

namespace Connection

variable {prims : Primitives} {broker : Broker} {c : Connection} {credentials : ScramCredentials}
  {session : ScramSession} {authText : Text}

theorem clientFirstReceived_cases {random : Option Bytes} :
    c.clientFirstReceived credentials random authText = c.fail ∨
      ∃ first credential bytes, parseScramClientFirst authText = some first ∧
        credentials.lookup first.username c.negotiatedScramMechanism = some credential ∧
        random = some bytes ∧
        c.clientFirstReceived credentials random authText =
          c.challenge (c.session first credential bytes) := by
  unfold clientFirstReceived
  cases hfirst : parseScramClientFirst authText with
  | none => exact Or.inl rfl
  | some first =>
    cases hcredential : credentials.lookup first.username c.negotiatedScramMechanism with
    | none => exact Or.inl (by simp only [hcredential])
    | some credential =>
      cases random with
      | none => exact Or.inl (by simp only [hcredential])
      | some bytes =>
        exact Or.inr ⟨first, credential, bytes, rfl, hcredential, rfl, by simp only [hcredential]⟩

/-- A client-final message ends the open exchange with success. -/
structure Completes (prims : Primitives) (broker : Broker) (c : Connection)
    (credentials : ScramCredentials) (authText : Text) (session : ScramSession)
    (credential : ScramCredential) (final : ScramClientFinal) : Prop where
  opened : c.scramSession = some session
  found : credentials.lookup session.username (some session.mechanism) = some credential
  parsed : parseScramClientFinal authText = some final
  verified : finalVerifies prims broker session credential final = true

theorem Completes.result {credential : ScramCredential} {final : ScramClientFinal}
    (h : Completes prims broker c credentials authText session credential final) :
    c.clientFinalReceived prims broker credentials authText =
      c.succeed session.username (credential.buildServerFinal prims
        (authMessage session.clientFirstBare session.serverFirstMessage final.withoutProof)) := by
  simp [clientFinalReceived, h.opened, h.found, h.parsed, h.verified]

theorem clientFinalReceived_cases :
    c.clientFinalReceived prims broker credentials authText = c.fail ∨ ∃ session credential final,
        Completes prims broker c credentials authText session credential final := by
  unfold clientFinalReceived
  cases hopened : c.scramSession with
  | none => exact Or.inl rfl
  | some session =>
    cases hfound : credentials.lookup session.username (some session.mechanism) with
    | none => exact Or.inl (by simp only [hfound])
    | some credential =>
      cases hparsed : parseScramClientFinal authText with
      | none => exact Or.inl (by simp only [hfound])
      | some final =>
        cases hverified : finalVerifies prims broker session credential final with
        | false => exact Or.inl (by simp [hfound, hverified])
        | true =>
          exact Or.inr ⟨session, credential, final, hopened, hfound, hparsed, hverified⟩

theorem plainReceived_cases :
    c.plainReceived prims broker credentials authText = c.fail ∨
      ∃ username, c.plainReceived prims broker credentials authText = c.succeed username [] := by
  unfold plainReceived
  split
  split
  · exact Or.inr ⟨_, rfl⟩
  · exact Or.inl rfl

/-! ## No exchange is checked as a bound one -/

/-- Neither the connection nor its open exchange has the flag of a `-PLUS`
mechanism. -/
structure Unbound (c : Connection) : Prop where
  isPlus : c.negotiatedScramIsPlus = false
  opened : ∀ session, c.scramSession = some session → session.channelBound = false

theorem unbound_accepted {principal : Text} : (accepted principal).Unbound where
  isPlus := rfl
  opened := nofun

section

variable (h : c.Unbound)
include h

theorem Unbound.fail : c.fail.1.Unbound where
  isPlus := h.isPlus
  opened := nofun

theorem Unbound.succeed (username authText : Text) :
    (c.succeed username authText).1.Unbound where
  isPlus := h.isPlus
  opened := nofun

theorem Unbound.challenge
    (hsession : session.channelBound = false) : (c.challenge session).1.Unbound where
  isPlus := h.isPlus
  opened := fun _ hopened => Option.some.inj hopened ▸ hsession

theorem Unbound.saslAuthenticate (random : Option Bytes) (authText : Option Text) :
    (c.saslAuthenticate prims broker credentials random authText).1.Unbound := by
  unfold Connection.saslAuthenticate
  cases authText with
  | none => exact h.fail
  | some authText =>
    show (if _ then _ else if _ then _ else _ : Connection × SaslAuthResponse).1.Unbound
    split
    · obtain hfail | ⟨first, credential, bytes, -, -, -, hresult⟩ :=
        clientFirstReceived_cases
      · rw [hfail]
        exact h.fail
      · rw [hresult]
        exact h.challenge h.isPlus
    · split
      · obtain hfail | ⟨session, credential, final, hcompletes⟩ :=
          clientFinalReceived_cases
        · rw [hfail]
          exact h.fail
        · rw [hcompletes.result]
          exact h.succeed _ _
      · obtain hfail | ⟨username, hresult⟩ := plainReceived_cases
        · rw [hfail]
          exact h.fail
        · rw [hresult]
          exact h.succeed _ _

theorem Unbound.handle (input : SaslInput) : (c.handle prims broker input).Unbound := by
  unfold Connection.handle
  cases input.request with
  | saslHandshake mechanism =>
    show (c.saslHandshake broker mechanism).1.Unbound
    unfold Connection.saslHandshake
    split
    · exact ⟨h.isPlus, h.opened⟩
    · exact h
  | saslAuthenticate => exact h.saslAuthenticate _ _

end

end Connection

/-! ## Channel binding after a `-PLUS` handshake -/

/-- A connection with the mechanism that its last successful handshake named. -/
structure Monitored where
  connection : Connection
  lastHandshake : Option Text

namespace Monitored

def accepted (principal : Text) : Monitored where
  connection := .accepted principal
  lastHandshake := none

def step (prims : Primitives) (broker : Broker) (m : Monitored) (input : SaslInput) :
    Monitored where
  connection := m.connection.handle prims broker input
  lastHandshake :=
    match input.request with
    | .saslHandshake mechanism =>
      if broker.supports mechanism then some mechanism else m.lastHandshake
    | .saslAuthenticate _ => m.lastHandshake

def NamedPlus (m : Monitored) : Prop :=
  ∃ mechanism, m.lastHandshake = some mechanism ∧ "-PLUS".toList <:+ Text.asciiUpper mechanism

end Monitored

/-- The request is handled as a client-final message. -/
def SaslInput.IsClientFinal (input : SaslInput) (authText : Text) : Prop :=
  input.request = .saslAuthenticate (some authText) ∧ isScramClientFirst authText = false ∧
    isScramClientFinal authText = true

/-- The `c=` value of the message is the binding of this server. -/
def SaslInput.CarriesBinding (broker : Broker) (input : SaslInput) : Prop :=
  ∃ authText final binding, input.request = .saslAuthenticate (some authText) ∧
    parseScramClientFinal authText = some final ∧ broker.tlsChannelBinding = some binding ∧
    Base64.decode final.channelBinding = some (bindingHeader ++ binding)

namespace Monitored

variable (prims : Primitives) (broker : Broker)

/-- The principal is changed by the end of a SCRAM exchange. -/
def ChangedByScram (m : Monitored) (input : SaslInput) : Prop :=
  (∃ authText, input.IsClientFinal authText) ∧
    (m.connection.handle prims broker input).principal ≠ m.connection.principal

/-- After a `-PLUS` handshake, an exchange changes the principal only with the binding
of this server. -/
def BindingKept (m : Monitored) (input : SaslInput) : Prop :=
  m.NamedPlus → m.ChangedByScram prims broker input → input.CarriesBinding broker

/-- The message completes an exchange that gives the connection to another user. -/
def TakenOver (m : Monitored) (input : SaslInput) : Prop :=
  ∃ authText session credential final, input.IsClientFinal authText ∧
    m.connection.Completes prims broker input.credentials authText session credential final ∧
    userPrincipal session.username ≠ m.connection.principal

end Monitored

namespace Connection

variable {prims : Primitives} {broker : Broker} {c : Connection} {input : SaslInput}
  {authText : Text}

theorem handle_clientFinal (h : input.IsClientFinal authText) : c.handle prims broker input =
      (c.clientFinalReceived prims broker input.credentials authText).1 := by
  obtain ⟨hrequest, hfirst, hfinal⟩ := h
  unfold handle
  rw [hrequest]
  show (c.saslAuthenticate prims broker input.credentials input.random (some authText)).1 = _
  simp [saslAuthenticate, hfirst, hfinal]

theorem Completes.decode_ne {session : ScramSession} {credential : ScramCredential}
    {final : ScramClientFinal} {credentials : ScramCredentials} (hc : c.Unbound)
    (h : c.Completes prims broker credentials authText session credential final)
    (binding : Bytes) : Base64.decode final.channelBinding ≠ some (bindingHeader ++ binding) := by
  intro hdecode
  have hexpected : expectedBinding broker session = none := by
    simp [expectedBinding, hc.opened session h.opened]
  have hverified := h.verified
  simp only [finalVerifies, verifyChannelBinding, hexpected, hdecode, Bool.and_eq_true,
    Bool.or_eq_true, beq_iff_eq] at hverified
  have hhead : (bindingHeader ++ binding).head? = some 112 := rfl
  rcases hverified.1 with hn | hy
  · rw [hn] at hhead
    cases hhead
  · rw [hy] at hhead
    cases hhead

end Connection

namespace Monitored

variable {prims : Primitives} {broker : Broker} {m : Monitored} {input : SaslInput}

theorem bindingKept_step_iff (hm : m.connection.Unbound) :
    m.BindingKept prims broker input ↔ ¬ (m.NamedPlus ∧ m.TakenOver prims broker input) := by
  constructor
  · rintro hkept ⟨hplus, authText, session, credential, final, hfinal, hcompletes, hprincipal⟩
    have hchanged : m.ChangedByScram prims broker input := by
      refine ⟨⟨authText, hfinal⟩, ?_⟩
      rw [Connection.handle_clientFinal hfinal, hcompletes.result]
      exact hprincipal
    obtain ⟨text, parsed, binding, hrequest, hparsed, -, hdecode⟩ := hkept hplus hchanged
    rw [hfinal.1, SaslRequest.saslAuthenticate.injEq, Option.some.injEq] at hrequest
    subst hrequest
    rw [hcompletes.parsed, Option.some.injEq] at hparsed
    subst hparsed
    exact hcompletes.decode_ne hm binding hdecode
  · rintro hnot hplus ⟨⟨authText, hfinal⟩, hchanged⟩
    rw [Connection.handle_clientFinal hfinal] at hchanged
    obtain hfail | ⟨session, credential, final, hcompletes⟩ :=
      Connection.clientFinalReceived_cases
    · rw [hfail] at hchanged
      exact absurd rfl hchanged
    · rw [hcompletes.result] at hchanged
      exact absurd ⟨hplus, authText, session, credential, final, hfinal, hcompletes, hchanged⟩ hnot

/-- On every connection, the binding is kept along the whole run exactly when no
exchange that follows a `-PLUS` handshake gives the connection to another user. -/
theorem bindingKept_iff_notTakenOver (prims : Primitives) (broker : Broker) (principal : Text)
    (inputs : List SaslInput) :
    Run.Guarded (step prims broker) (BindingKept prims broker) (accepted principal) inputs ↔
      Run.Guarded (step prims broker)
        (fun m input => ¬ (m.NamedPlus ∧ m.TakenOver prims broker input))
        (accepted principal) inputs := by
  have hstep : ∀ m input, m.connection.Unbound → (step prims broker m input).connection.Unbound :=
    fun _ input hm => hm.handle input
  exact guarded_congr hstep (fun _ _ hm => bindingKept_step_iff hm)
    Connection.unbound_accepted

end Monitored

/-! ## An exchange without a binding after a `-PLUS` handshake -/

variable (prims : Primitives)

/-- The client-final message of a client that knows the password ends an exchange
checked as an unbound one. -/
theorem Connection.completes_build (broker : Broker) {c : Connection}
    {credentials : ScramCredentials} {session : ScramSession} {password : Text}
    {iterations : UInt32}
    {salt : Bytes} (hopened : c.scramSession = some session) (hbound : session.channelBound = false)
    (hfound : credentials.lookup session.username (some session.mechanism) =
      some (.fromPassword prims session.username password .sha256 iterations salt))
    (hnonce : ',' ∉ session.combinedNonce) :
    ∃ final, c.Completes prims broker credentials
      (buildScramClientFinal prims password session.clientFirstBare session.serverFirstMessage
        { nonce := session.combinedNonce, salt := salt, iterations := iterations } none)
      session (.fromPassword prims session.username password .sha256 iterations salt) final := by
  have hbinding : ',' ∉ encodeChannelBinding none := Base64.comma_notMem_encode _
  refine ⟨_, hopened, hfound, parseScramClientFinal_build hbinding hnonce, ?_⟩
  have hexpected : expectedBinding broker session = none := by
    simp [expectedBinding, hbound]
  have hverify : verifyChannelBinding (encodeChannelBinding none) none = true := by decide
  simp only [finalVerifies, hexpected, hverify, beq_self_eq_true, Bool.true_and]
  exact verifyClientProof_fromPassword

theorem Connection.saslAuthenticate_clientFirst (broker : Broker)
    {c : Connection} {credentials : ScramCredentials} {username : Text}
    {credential : ScramCredential}
    (clientRandom random : Bytes) (hcomma : ',' ∉ username) (hproof : ¬ "p=".toList <:+: username)
    (hfound : credentials.lookup username c.negotiatedScramMechanism = some credential) :
    c.saslAuthenticate prims broker credentials (some random)
        (some (clientFirst none username (hexEncode clientRandom))) =
      c.challenge (c.session
        { username := username
          clientNonce := hexEncode clientRandom
          clientFirstBare := Sasl.clientFirstBare username (hexEncode clientRandom) }
        credential random) := by
  have hfirst := (isScramClientFirst_clientFirst username clientRandom).mpr hproof
  have hparsed := parseScramClientFirst_clientFirst hcomma (comma_notMem_hexEncode clientRandom)
  simp [Connection.saslAuthenticate, hfirst, Connection.clientFirstReceived, hparsed, hfound]

def ScramCredentials.single (credential : ScramCredential) : ScramCredentials where
  get username mechanism :=
    if credential.username = username ∧ credential.mechanism = mechanism then some credential
    else none
  keyed := by
    intro username mechanism found hfound
    split at hfound
    · next h => exact Option.some.inj hfound ▸ h
    · cases hfound

def certified : Broker where
  saslMechanisms := ["SCRAM-SHA-256".toList]
  tlsChannelBinding := some [7]
  authToken := none

section Downgraded

variable (prims : Primitives)

def alice : ScramCredential :=
  .fromPassword prims "alice".toList "secret".toList .sha256 4096 [1, 2, 3]

def aliceSession : ScramSession :=
  (Connection.accepted []).session
    { username := "alice".toList
      clientNonce := hexEncode (List.replicate 18 0)
      clientFirstBare := clientFirstBare "alice".toList (hexEncode (List.replicate 18 0)) }
    (alice prims) (List.replicate 18 1)

/-- A handshake for the bound mechanism, then both messages of an unbound exchange. -/
def downgraded : List SaslInput :=
  [.saslHandshake "SCRAM-SHA-256-PLUS".toList,
    .saslAuthenticate (clientFirst none "alice".toList (hexEncode (List.replicate 18 0))),
    .saslAuthenticate (buildScramClientFinal prims "secret".toList
      (aliceSession prims).clientFirstBare (aliceSession prims).serverFirstMessage
      { nonce := (aliceSession prims).combinedNonce, salt := [1, 2, 3],
        iterations := 4096 } none)].map
    fun request =>
      { request := request, credentials := .single (alice prims),
        random := some (List.replicate 18 1) }

end Downgraded

theorem lookup_alice : (single (alice prims)).lookup "alice".toList none = some (alice prims) := by
  simp [lookup, single, alice, ScramCredential.fromPassword]

def Monitored.challenged : Monitored where
  connection :=
    { principal := "User:ANONYMOUS".toList
      scramSession := some (aliceSession prims)
      negotiatedScramMechanism := none
      negotiatedScramIsPlus := false }
  lastHandshake := some "SCRAM-SHA-256-PLUS".toList

theorem Monitored.run_downgraded :
    run (step prims certified) (accepted "User:ANONYMOUS".toList)
      ((downgraded prims).take 2) = challenged prims := by
  have hsupports : certified.supports "SCRAM-SHA-256-PLUS".toList = true := by decide
  have hmechanism : ScramMechanism.fromStr "SCRAM-SHA-256-PLUS".toList = none := by decide
  have hfirst := Connection.saslAuthenticate_clientFirst prims certified
    (c := .accepted "User:ANONYMOUS".toList) (List.replicate 18 0) (List.replicate 18 1)
    (by decide) (by decide) (lookup_alice prims)
  simp only [downgraded, List.map_cons, List.take_succ_cons, List.take_zero, run_cons,
    run_nil, step, Connection.handle, Connection.saslHandshake, hsupports, hmechanism, if_true]
  exact congrArg (fun result => Monitored.mk (Prod.fst result) _) hfirst

/-- The server takes the unbound exchange, whatever the primitives compute. -/
theorem Monitored.not_bindingKept_downgraded :
    ¬ ∃ prims : Primitives, Run.Guarded (Monitored.step prims certified)
      (Monitored.BindingKept prims certified) (Monitored.accepted "User:ANONYMOUS".toList)
      (downgraded prims) := by
  rintro ⟨prims, hkept⟩
  have hlast : BindingKept prims certified (run (step prims certified)
      (accepted "User:ANONYMOUS".toList) ((downgraded prims).take 2)) _ := hkept.2.2.1
  rw [run_downgraded] at hlast
  have hunbound : (challenged prims).connection.Unbound :=
    ⟨rfl, fun session hopened => Option.some.inj hopened ▸ rfl⟩
  have hfound : (single (alice prims)).lookup (aliceSession prims).username
      (some (aliceSession prims).mechanism) = some (alice prims) := by
    simp [lookup, single, alice, ScramCredential.fromPassword, aliceSession, Connection.session]
  have hnonce : ',' ∉ (aliceSession prims).combinedNonce := by
    show ',' ∉ hexEncode _ ++ hexEncode _
    decide
  obtain ⟨final, hcompletes⟩ := Connection.completes_build prims _
    (c := (challenged prims).connection) rfl rfl hfound hnonce
  refine (bindingKept_step_iff hunbound).mp hlast ⟨⟨_, rfl, by decide⟩, ?_⟩
  refine ⟨_, aliceSession prims, alice prims, final, ⟨rfl, ?_, ?_⟩, hcompletes, ?_⟩
  · exact isScramClientFirst_eq_false_of_final isScramClientFinal_build
  · exact isScramClientFinal_build
  · show userPrincipal "alice".toList ≠ "User:ANONYMOUS".toList
    decide

end Bifrox.Sasl
