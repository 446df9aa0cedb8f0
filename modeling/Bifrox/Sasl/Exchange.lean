/-
The client's side of a SCRAM exchange (`src/client.rs`), against a server or against
anyone who answers.

The client compares neither the nonce with its own nor the last reply with anything.
-/
import Bifrox.Sasl.Connection

namespace Bifrox.Sasl

open Connection Except List Option Base64

abbrev Reply : Type := Except ClientError SaslAuthResponse

/-! ## The client -/

section Client

variable (prims : Primitives) (username password : Text) (random : Bytes)
  (channelBinding : Option Bytes)

/-- What follows a reply to the client-first message: the outcome of the exchange, or
the client-final message. -/
def clientFinalFor (reply : Reply) : Except (Except ClientError Int16) Text :=
  match reply with
  | .error e => .error (.error e)
  | .ok first =>
    if first.errorCode ≠ 0 then .error (.ok first.errorCode)
    else
      match first.authText with
      | none => .error (.error .invalidUtf8)
      | some serverFirst =>
        match parseScramServerFirst serverFirst with
        | .error e => .error (.error e)
        | .ok parsed =>
          .ok (buildScramClientFinal prims password (clientFirstBare username (hexEncode random))
            serverFirst parsed channelBinding)

def saslAuthenticateScramInner {Peer : Type} (send : Peer → Text → Peer × Reply) (peer : Peer) :
    Peer × Except ClientError Int16 :=
  let (peer₁, reply) := send peer (clientFirst channelBinding username (hexEncode random))
  match clientFinalFor prims username password random channelBinding reply with
  | .error outcome => (peer₁, outcome)
  | .ok message =>
    let (peer₂, final) := send peer₁ message
    (peer₂, final.map SaslAuthResponse.errorCode)

/-- The signature of a server that holds the credential of the password. -/
def serverSignature (serverFirst : Text) (parsed : ScramServerFirst) : Bytes :=
  prims.hmac .sha256 (scramServerKey prims .sha256 password parsed.salt parsed.iterations)
    (asBytes (authMessage (clientFirstBare username (hexEncode random)) serverFirst
      (clientFinalWithoutProof channelBinding parsed.nonce)))

end Client

section Client

variable {prims : Primitives} {username password : Text} {random : Bytes}
  {channelBinding : Option Bytes} {Peer : Type} {send : Peer → Text → Peer × Reply} {peer : Peer}

theorem clientFinalFor_eq_ok {reply : Reply} {message : Text} :
    clientFinalFor prims username password random channelBinding reply = .ok message ↔
      ∃ first serverFirst parsed, reply = .ok first ∧ first.errorCode = 0 ∧
        first.authText = some serverFirst ∧ parseScramServerFirst serverFirst = .ok parsed ∧
        buildScramClientFinal prims password (clientFirstBare username (hexEncode random))
          serverFirst parsed channelBinding = message := by
  constructor
  · intro h
    unfold clientFinalFor at h
    split at h
    · exact absurd h (by simp)
    · next first =>
      split at h
      · exact absurd h (by simp)
      · next hcode =>
        split at h
        · exact absurd h (by simp)
        · next serverFirst htext =>
          split at h
          · exact absurd h (by simp)
          · next parsed hparsed =>
            exact ⟨first, serverFirst, parsed, rfl, not_not.mp hcode, htext, hparsed, ok.inj h⟩
  · rintro ⟨first, serverFirst, parsed, rfl, hcode, htext, hparsed, rfl⟩
    simp only [clientFinalFor, hcode, ne_eq, not_true_eq_false, if_false, htext, hparsed]

theorem clientFinalFor_success {serverFirst : Text} {parsed : ScramServerFirst}
    (hparsed : parseScramServerFirst serverFirst = .ok parsed) :
    clientFinalFor prims username password random channelBinding (.ok (.success serverFirst)) =
      .ok (buildScramClientFinal prims password (clientFirstBare username (hexEncode random))
        serverFirst parsed channelBinding) :=
  clientFinalFor_eq_ok.mpr ⟨_, serverFirst, parsed, rfl, rfl, rfl, hparsed, rfl⟩

theorem clientFinalFor_ne_success (reply : Reply) :
    clientFinalFor prims username password random channelBinding reply ≠ .error (.ok 0) := by
  intro h
  unfold clientFinalFor at h
  split at h
  · exact absurd h (by simp)
  · split at h
    · next hcode => exact hcode (ok.inj (error.inj h))
    · split at h
      · exact absurd h (by simp)
      · split at h
        · exact absurd h (by simp)
        · exact absurd h (by simp)

theorem saslAuthenticateScramInner_ok_iff :
    (saslAuthenticateScramInner prims username password random channelBinding send peer).2 = .ok 0 ↔
      ∃ message final, clientFinalFor prims username password random channelBinding
          (send peer (clientFirst channelBinding username (hexEncode random))).2 = .ok message ∧
        (send (send peer (clientFirst channelBinding username (hexEncode random))).1 message).2 =
          .ok final ∧ final.errorCode = 0 := by
  unfold saslAuthenticateScramInner
  cases hnext : clientFinalFor prims username password random channelBinding
      (send peer (clientFirst channelBinding username (hexEncode random))).2 with
  | error outcome =>
    simp only [hnext]
    constructor
    · intro h
      rw [h] at hnext
      exact absurd hnext (clientFinalFor_ne_success _)
    · rintro ⟨message, final, h, -⟩
      exact absurd h (by simp)
  | ok message =>
    simp only [hnext]
    cases hfinal : (send (send peer (clientFirst channelBinding username (hexEncode random))).1
        message).2 with
    | error e =>
      constructor
      · intro h
        exact absurd h (by simp [Except.map])
      · rintro ⟨message', final, hmessage, hreply, -⟩
        rw [← Except.ok.inj hmessage, hfinal] at hreply
        exact absurd hreply (by simp)
    | ok final =>
      constructor
      · intro h
        exact ⟨message, final, rfl, hfinal, ok.inj h⟩
      · rintro ⟨message', final', hmessage, hreply, hcode⟩
        rw [← ok.inj hmessage, hfinal] at hreply
        show ok final.errorCode = _
        rw [ok.inj hreply, hcode]

theorem saslAuthenticateScramInner_peer {message : Text}
    (h : clientFinalFor prims username password random channelBinding
      (send peer (clientFirst channelBinding username (hexEncode random))).2 = .ok message) :
    (saslAuthenticateScramInner prims username password random channelBinding send peer).1 =
      (send (send peer (clientFirst channelBinding username (hexEncode random))).1 message).1 := by
  simp only [saslAuthenticateScramInner, h]

end Client

/-! ## With the server -/

def serve (prims : Primitives) (broker : Broker) (credentials : ScramCredentials) (random : Bytes)
    (c : Connection) (authText : Text) : Connection × Reply :=
  let (c', response) := c.saslAuthenticate prims broker credentials (some random) (some authText)
  (c', .ok response)

/-- The exchange succeeds for the user it names. -/
def Accepted (prims : Primitives) (broker : Broker) (credentials : ScramCredentials)
    (c : Connection) (username password : Text) (clientRandom random : Bytes)
    (channelBinding : Option Bytes) : Prop :=
  let result := saslAuthenticateScramInner prims username password clientRandom channelBinding
    (serve prims broker credentials random) c
  result.2 = .ok 0 ∧ result.1.principal = userPrincipal username

/-- The exchange is unbound, its first message can be read, and the server picks the
SHA-256 credential. -/
structure Readable (credentials : ScramCredentials) (c : Connection) (username : Text)
    (channelBinding : Option Bytes) : Prop where
  unbound : channelBinding = none
  comma : ',' ∉ username
  proof : ¬ "p=".toList <:+: username
  mechanism : c.negotiatedScramMechanism = some .sha256 ∨
    c.negotiatedScramMechanism = none ∧ credentials.get username .sha512 = none

section Accepted

variable {prims : Primitives} {broker : Broker} {credentials : ScramCredentials} {c : Connection}
  {username password : Text} {clientRandom random : Bytes} {channelBinding : Option Bytes}

variable {credential : ScramCredential}

theorem mechanism_of_lookup
    (hfound : credentials.lookup username c.negotiatedScramMechanism = some credential)
    (hmechanism : credential.mechanism = .sha256) :
    c.negotiatedScramMechanism = some .sha256 ∨
      c.negotiatedScramMechanism = none ∧ credentials.get username .sha512 = none := by
  cases hnegotiated : c.negotiatedScramMechanism with
  | some mechanism =>
    rw [hnegotiated] at hfound
    have hkeyed := (credentials.keyed username mechanism credential hfound).2
    exact Or.inl (by rw [← hkeyed, hmechanism])
  | none =>
    rw [hnegotiated] at hfound
    refine Or.inr ⟨rfl, ?_⟩
    cases hother : credentials.get username .sha512 with
    | none => rfl
    | some other =>
      have heq : some other = some credential := by
        rw [← hfound]
        show _ = (credentials.get username .sha512).or _
        rw [hother]
        rfl
      have hkeyed := (credentials.keyed username .sha512 other hother).2
      rw [some.inj heq, hmechanism] at hkeyed
      exact absurd hkeyed (by decide)

variable {authText : Text} {final : ScramClientFinal} {session : ScramSession}

theorem serve_clientFinal (h : isScramClientFinal authText = true) :
    let r := c.clientFinalReceived prims broker credentials authText
    serve prims broker credentials random c authText = (r.1, .ok r.2) := by
  have hfirst := isScramClientFirst_eq_false_of_final h
  simp only [serve, saslAuthenticate, hfirst, h, Bool.false_eq_true, if_false, if_true]

theorem serve_clientFirst (h : isScramClientFirst authText = true) :
    let r := c.clientFirstReceived credentials (some random) authText
    serve prims broker credentials random c authText = (r.1, .ok r.2) := by
  simp only [serve, saslAuthenticate, h, if_true]

/-- A server that holds the credential of the password answers both messages of a readable
exchange, the second one with its signature. -/
theorem Readable.exchange (prims : Primitives) (broker : Broker) (clientRandom random : Bytes)
    {iterations : UInt32} {salt : Bytes} (hc : c.Unbound)
    (hstored : credentials.get username .sha256 =
      some (.fromPassword prims username password .sha256 iterations salt))
    (h : Readable credentials c username channelBinding) :
    ∃ serverFirst parsed c₁ c₂, parseScramServerFirst serverFirst = .ok parsed ∧
      parsed.nonce = hexEncode clientRandom ++ hexEncode random ∧
      serve prims broker credentials random c
        (clientFirst channelBinding username (hexEncode clientRandom)) =
          (c₁, .ok (.success serverFirst)) ∧
      serve prims broker credentials random c₁ (buildScramClientFinal prims password
        (clientFirstBare username (hexEncode clientRandom)) serverFirst parsed channelBinding) =
          (c₂, .ok (.success ("v=".toList ++ encode (serverSignature prims username password
            clientRandom channelBinding serverFirst parsed)))) ∧
      c₂.principal = userPrincipal username := by
  obtain ⟨rfl, hcomma, hproof, hmechanism⟩ := h
  have hlookup : credentials.lookup username c.negotiatedScramMechanism =
      some (.fromPassword prims username password .sha256 iterations salt) := by
    rcases hmechanism with hsome | ⟨hnone, hother⟩
    · rw [hsome]
      exact hstored
    · rw [hnone]
      show (credentials.get username .sha512).or _ = _
      rw [hother, none_or, hstored]
  have hchallenge := saslAuthenticate_clientFirst prims broker clientRandom random hcomma
    hproof hlookup
  set session := c.session _ _ random
  have hnonce : ',' ∉ session.combinedNonce := by
    show ',' ∉ hexEncode clientRandom ++ hexEncode random
    simp [comma_notMem_hexEncode]
  obtain ⟨final, hcompletes⟩ := completes_build prims broker
    (c := (c.challenge session).1) rfl hc.isPlus hstored hnonce
  have hbinding : ',' ∉ encodeChannelBinding none := comma_notMem_encode _
  have hfinal := some.inj
    (hcompletes.parsed.symm.trans (parseScramClientFinal_build hbinding hnonce))
  refine ⟨session.serverFirstMessage,
    { nonce := session.combinedNonce, salt := salt, iterations := iterations },
    (c.challenge session).1, ((c.challenge session).1.succeed username []).1,
    parseScramServerFirst_serverFirstMessage hnonce, rfl, ?_, ?_, rfl⟩
  · simp only [serve, hchallenge]
    rfl
  · have hresult := hcompletes.result
    rw [hfinal] at hresult
    exact (serve_clientFinal isScramClientFinal_build).trans
      (congrArg (fun r => (r.1, Except.ok r.2)) hresult)

theorem Readable.accepted {iterations : UInt32} {salt : Bytes} (hc : c.Unbound)
    (hstored : credentials.get username .sha256 =
      some (.fromPassword prims username password .sha256 iterations salt))
    (h : Readable credentials c username channelBinding) :
    Accepted prims broker credentials c username password clientRandom random channelBinding := by
  obtain ⟨serverFirst, parsed, c₁, c₂, hparsed, -, hfirst, hfinal, hprincipal⟩ :=
    h.exchange prims broker clientRandom random hc hstored
  have hnext := (congrArg (fun r => clientFinalFor prims username password clientRandom
    channelBinding r.2) hfirst).trans (clientFinalFor_success hparsed)
  constructor
  · exact saslAuthenticateScramInner_ok_iff.mpr
      ⟨_, _, hnext, by rw [hfirst]; exact congrArg Prod.snd hfinal, rfl⟩
  · rw [saslAuthenticateScramInner_peer hnext, hfirst, hfinal, hprincipal]

theorem parseScramServerFirst_verifier (signature : Bytes) :
    parseScramServerFirst ("v=".toList ++ encode signature) = .error .saltMissing := by
  have hcomma : ',' ∉ "v=".toList ++ encode signature := by
    simp [comma_notMem_encode]
  have hsalt : Text.lastTagged "s=".toList ("v=".toList ++ encode signature) = none := by
    rw [Text.lastTagged_of_notMem hcomma]
    simp [isPrefixOf?]
  simp only [parseScramServerFirst, hsalt]

theorem parseScramServerFirst_nil : parseScramServerFirst [] = .error .saltMissing := by
  decide

theorem Connection.fail_errorCode (c : Connection) : c.fail.2.errorCode ≠ 0 := by
  show (58 : Int16) ≠ 0
  decide

theorem clientFinalFor_serve_ne {message : Text} (h : isScramClientFirst authText = false) :
    clientFinalFor prims username password clientRandom channelBinding
      (serve prims broker credentials random c authText).2 ≠ .ok message := by
  intro hnext
  obtain ⟨first, serverFirst, parsed, hreply, hcode, htext, hparsed, -⟩ :=
    clientFinalFor_eq_ok.mp hnext
  by_cases hfinal : isScramClientFinal authText = true
  · rw [serve_clientFinal hfinal] at hreply
    obtain hfail | ⟨session, credential, final, hcompletes⟩ :=
      clientFinalReceived_cases
    · rw [hfail] at hreply
      rw [← ok.inj hreply] at hcode
      exact c.fail_errorCode hcode
    · rw [hcompletes.result] at hreply
      rw [← ok.inj hreply] at htext
      rw [← some.inj htext] at hparsed
      rw [ScramCredential.buildServerFinal, parseScramServerFirst_verifier] at hparsed
      exact absurd hparsed (by simp)
  · have hplain : serve prims broker credentials random c authText =
        ((c.plainReceived prims broker credentials authText).1,
          .ok (c.plainReceived prims broker credentials authText).2) := by
      simp only [serve, saslAuthenticate, h, hfinal, Bool.false_eq_true, if_false]
    rw [hplain] at hreply
    obtain hfail | ⟨user, hresult⟩ :=
      plainReceived_cases
    · rw [hfail] at hreply
      rw [← ok.inj hreply] at hcode
      exact c.fail_errorCode hcode
    · rw [hresult] at hreply
      rw [← ok.inj hreply] at htext
      rw [← some.inj htext, parseScramServerFirst_nil] at hparsed
      exact absurd hparsed (by simp)

theorem isScramClientFirst_bound (binding : Bytes) (username nonce : Text) :
    isScramClientFirst (clientFirst (some binding) username nonce) = false := by
  have hp : "p=".toList <:+: clientFirst (some binding) username nonce :=
    ⟨[], "tls-server-end-point,,".toList ++ clientFirstBare username nonce, by
      simp [clientFirst, gs2Header]⟩
  simp only [isScramClientFirst, hp, decide_true, Bool.not_true, Bool.and_false]

/-- The proof that the client builds has the length of a SHA-256 signature, and no
credential of another mechanism verifies it. -/
theorem mechanism_of_completes
    {bare serverFirst : Text} {parsed : ScramServerFirst} (hnonce : ',' ∉ parsed.nonce)
    (h : c.Completes prims broker credentials
      (buildScramClientFinal prims password bare serverFirst parsed channelBinding)
      session credential final) : session.mechanism = .sha256 := by
  have hbinding : ',' ∉ encodeChannelBinding channelBinding := by
    cases channelBinding with
    | none => exact comma_notMem_encode _
    | some => exact comma_notMem_encode _
  have hparsed := h.parsed
  rw [buildScramClientFinal, clientFinalWithoutProof,
    parseScramClientFinal_build hbinding hnonce, some.injEq] at hparsed
  have hverified := h.verified
  simp only [finalVerifies, Bool.and_eq_true] at hverified
  have hlength : credential.mechanism.outputLen = 32 := by
    rw [← length_of_verifyClientProof hverified.2.2, ← hparsed]
    show (xorBytes (prims.hmac _ _ _) (prims.hmac _ _ _)).length = 32
    rw [xorBytes, length_zipWith, prims.length_hmac, prims.length_hmac]
    rfl
  have hkeyed := (credentials.keyed _ _ _ h.found).2
  rw [hkeyed] at hlength
  cases hmechanism : session.mechanism with
  | sha256 => rfl
  | sha512 =>
    rw [hmechanism] at hlength
    exact absurd hlength (by decide)

theorem Accepted.readable
    (h : Accepted prims broker credentials c username password clientRandom random channelBinding) :
    Readable credentials c username channelBinding := by
  obtain ⟨hsuccess, hprincipal⟩ := h
  obtain ⟨message, final, hnext, hreply, hcode⟩ := saslAuthenticateScramInner_ok_iff.mp hsuccess
  rw [saslAuthenticateScramInner_peer hnext] at hprincipal
  have hisFirst : isScramClientFirst (clientFirst channelBinding username
      (hexEncode clientRandom)) = true := by
    by_contra hnot
    exact clientFinalFor_serve_ne (Bool.eq_false_iff.mpr hnot) hnext
  cases channelBinding with
  | some =>
    rw [isScramClientFirst_bound] at hisFirst
    exact absurd hisFirst (by decide)
  | none =>
    rw [serve_clientFirst hisFirst] at hnext hreply hprincipal
    obtain ⟨reply, serverFirst, parsed, hfirst, hzero, -, hparsed, hmessage⟩ :=
      clientFinalFor_eq_ok.mp hnext
    obtain hfail | ⟨first, credential, bytes, hread, hfound, -, hresult⟩ :=
      clientFirstReceived_cases
    · rw [hfail] at hfirst
      rw [← ok.inj hfirst] at hzero
      exact absurd hzero c.fail_errorCode
    · rw [hresult] at hreply hprincipal
      have hisFinal : isScramClientFinal message = true := by
        rw [← hmessage]
        exact isScramClientFinal_build
      rw [serve_clientFinal hisFinal] at hreply hprincipal
      obtain hfail | ⟨session, found, parsedFinal, hcompletes⟩ :=
        clientFinalReceived_cases
      · rw [hfail] at hreply
        rw [← ok.inj hreply] at hcode
        exact absurd hcode (fail_errorCode _)
      · rw [hcompletes.result] at hprincipal
        have hsession := some.inj hcompletes.opened
        have husername : first.username = username := by
          have hname := hprincipal
          rw [← hsession] at hname
          exact append_cancel_left hname
        subst hmessage
        have hmechanism :=
          mechanism_of_completes (comma_notMem_of_parseScramServerFirst hparsed) hcompletes
        rw [← hsession] at hmechanism
        rw [husername] at hfound
        exact
          { unbound := rfl
            comma := husername ▸ comma_notMem_of_parseScramClientFirst hread
            proof := (isScramClientFirst_clientFirst username clientRandom).mp hisFirst
            mechanism := mechanism_of_lookup hfound hmechanism }

end Accepted

/-- With a stored credential, on a connection after any requests, the exchange of the
client succeeds for its user exactly when it is readable. -/
theorem accepted_iff_readable (prims : Primitives) (broker : Broker) (principal : Text)
    (earlier : List SaslInput) (credentials : ScramCredentials) (username password : Text)
    (iterations : UInt32) (salt clientRandom random : Bytes) (channelBinding : Option Bytes)
    (hstored : credentials.get username .sha256 =
      some (.fromPassword prims username password .sha256 iterations salt)) :
    let c := Run.run (handle prims broker) (.accepted principal) earlier
    Accepted prims broker credentials c username password clientRandom random channelBinding ↔
      Readable credentials c username channelBinding := by
  intro c
  have hc : c.Unbound :=
    Run.run_invariant (fun _ input h => h.handle input) unbound_accepted earlier
  exact ⟨Accepted.readable, Readable.accepted hc hstored⟩

def Primitives.zero : Primitives where
  digest mechanism _ := replicate mechanism.outputLen 0
  hmac mechanism _ _ := replicate mechanism.outputLen 0
  pbkdf2 mechanism _ _ _ := replicate mechanism.outputLen 0
  length_hmac _ _ _ := length_replicate

theorem accepted_alice :
    (ScramCredentials.single (alice .zero)).get "alice".toList .sha256 = some (alice .zero) ∧
      Accepted .zero certified (.single (alice .zero))
        (Run.run (handle .zero certified) (.accepted "User:ANONYMOUS".toList) [])
        "alice".toList "secret".toList (replicate 18 0) (replicate 18 1) none :=
  ⟨rfl, (accepted_iff_readable .zero certified "User:ANONYMOUS".toList [] (.single (alice .zero))
    "alice".toList "secret".toList 4096 [1, 2, 3] (replicate 18 0) (replicate 18 1) none
    rfl).mpr ⟨rfl, by decide, by decide, Or.inr ⟨rfl, rfl⟩⟩⟩

/-- The exchange that carries the binding of the server fails, and so does one for a
user name with a comma in it. -/
theorem not_accepted_bound : ¬ ∃ prims : Primitives,
    Accepted prims certified (.single (alice prims)) (.accepted "User:ANONYMOUS".toList)
        "alice".toList "secret".toList (replicate 18 0) (replicate 18 1)
        certified.tlsChannelBinding ∨
      Accepted prims certified
        (.single (.fromPassword prims "a,b".toList "secret".toList .sha256 4096 [1, 2, 3]))
        (.accepted "User:ANONYMOUS".toList) "a,b".toList "secret".toList (replicate 18 0)
        (replicate 18 1) none := by
  rintro ⟨prims, h | h⟩
  · exact absurd h.readable.unbound (by decide)
  · exact absurd h.readable.comma (by decide)

/-! ## With anyone who answers -/

def scripted : List Reply → Text → List Reply × Reply
  | reply :: replies, _ => (replies, reply)
  | [], _ => ([], .error .io)

section Mutual

variable (prims : Primitives) (username password : Text) (random : Bytes)
  (channelBinding : Option Bytes)

variable (first final : Reply)

def outcome : Except ClientError Int16 :=
  (saslAuthenticateScramInner prims username password random channelBinding scripted
    [first, final]).2

/-- The replies have the form of a completed exchange. -/
def WellFormed (serverFirst : Text) (parsed : ScramServerFirst) (verifier : Option Text) : Prop :=
  (∃ response, first = .ok response ∧ response.errorCode = 0 ∧
      response.authText = some serverFirst) ∧
    parseScramServerFirst serverFirst = .ok parsed ∧
    ∃ response, final = .ok response ∧ response.errorCode = 0 ∧ response.authText = verifier

/-- The first reply extends the client's nonce and the last one carries the signature of
the server. -/
def Genuine : Prop :=
  ∃ serverFirst parsed verifier, WellFormed first final serverFirst parsed (some verifier) ∧
    hexEncode random <+: parsed.nonce ∧
    Text.lastTagged "v=".toList verifier = some (encode
      (serverSignature prims username password random channelBinding serverFirst parsed))

end Mutual

/-- Two replies make the exchange a success whenever they have its form. -/
theorem outcome_eq_ok_iff (prims : Primitives) (username password : Text) (random : Bytes)
    (channelBinding : Option Bytes) (first final : Reply) :
    outcome prims username password random channelBinding first final = .ok 0 ↔
      ∃ serverFirst parsed verifier, WellFormed first final serverFirst parsed verifier := by
  unfold outcome
  rw [saslAuthenticateScramInner_ok_iff]
  constructor
  · rintro ⟨message, last, hnext, hreply, hcode⟩
    obtain ⟨response, serverFirst, parsed, hfirst, hzero, htext, hparsed, -⟩ :=
      clientFinalFor_eq_ok.mp hnext
    exact ⟨serverFirst, parsed, last.authText, ⟨response, hfirst, hzero, htext⟩, hparsed, last,
      hreply, hcode, rfl⟩
  · rintro ⟨serverFirst, parsed, verifier, ⟨response, hfirst, hzero, htext⟩, hparsed, last, hlast,
      hcode, -⟩
    exact ⟨_, last, clientFinalFor_eq_ok.mpr
      ⟨response, serverFirst, parsed, hfirst, hzero, htext, hparsed, rfl⟩, hlast, hcode⟩

/-- The client goes on after the first reply. -/
def Continues (first : Reply) : Prop :=
  ∃ response serverFirst parsed, first = .ok response ∧ response.errorCode = 0 ∧
    response.authText = some serverFirst ∧ parseScramServerFirst serverFirst = .ok parsed

/-- An empty payload and no error is all that the last reply needs. -/
theorem exists_forged {first : Reply} (h : Continues first) (prims : Primitives)
    (username password : Text) (random : Bytes) (channelBinding : Option Bytes) :
    outcome prims username password random channelBinding first (.ok (.success [])) = .ok 0 ∧
      ¬ Genuine prims username password random channelBinding first (.ok (.success [])) := by
  obtain ⟨response, serverFirst, parsed, hfirst, hcode, htext, hparsed⟩ := h
  constructor
  · exact (outcome_eq_ok_iff ..).mpr
      ⟨serverFirst, parsed, some [], ⟨response, hfirst, hcode, htext⟩, hparsed, _, rfl, rfl, rfl⟩
  · rintro ⟨sent, read, verifier, ⟨-, -, response, hfinal, -, hverifier⟩, -, hsigned⟩
    rw [← ok.inj hfinal] at hverifier
    rw [← some.inj hverifier] at hsigned
    exact absurd hsigned (by simp [Text.lastTagged])

/-- The two replies of a server to the client. -/
def replies (prims : Primitives) (broker : Broker) (credentials : ScramCredentials)
    (c : Connection) (username password : Text) (clientRandom random : Bytes)
    (channelBinding : Option Bytes) : Reply × Reply :=
  let (c₁, first) := serve prims broker credentials random c
    (clientFirst channelBinding username (hexEncode clientRandom))
  match clientFinalFor prims username password clientRandom channelBinding first with
  | .error _ => (first, .error .io)
  | .ok message => (first, (serve prims broker credentials random c₁ message).2)

theorem genuine_replies {prims : Primitives} {broker : Broker} {credentials : ScramCredentials}
    {c : Connection} {username password : Text} {clientRandom random salt : Bytes}
    {iterations : UInt32} {channelBinding : Option Bytes} (hc : c.Unbound)
    (hstored : credentials.get username .sha256 =
      some (.fromPassword prims username password .sha256 iterations salt))
    (h : Readable credentials c username channelBinding) :
    let (first, final) := replies prims broker credentials c username password clientRandom random
      channelBinding
    outcome prims username password clientRandom channelBinding first final = .ok 0 ∧
      Genuine prims username password clientRandom channelBinding first final := by
  obtain ⟨serverFirst, parsed, c₁, c₂, hparsed, hnonce, hfirst, hfinal, -⟩ :=
    h.exchange prims broker clientRandom random hc hstored
  simp only [replies, hfirst, clientFinalFor_success hparsed, hfinal]
  set verifier := "v=".toList ++ encode (serverSignature prims username password clientRandom
    channelBinding serverFirst parsed) with hverifier
  have hformed : WellFormed (.ok (.success serverFirst)) (.ok (.success verifier))
      serverFirst parsed (some verifier) := ⟨⟨_, rfl, rfl, rfl⟩, hparsed, _, rfl, rfl, rfl⟩
  refine ⟨(outcome_eq_ok_iff ..).mpr ⟨_, _, _, hformed⟩, _, _, verifier, hformed, ?_, ?_⟩
  · rw [hnonce]
    exact prefix_append _ _
  · have hcomma : ',' ∉ verifier := by simp [hverifier, comma_notMem_encode]
    rw [Text.lastTagged_of_notMem hcomma]
    simp [hverifier, isPrefixOf?]

/-- A first reply stands for a genuine server, whatever follows it, exactly when the client stops
there; and the replies of a server that holds the credential are genuine. -/
theorem mutual_iff_stops (prims : Primitives) (username password : Text) (clientRandom : Bytes)
    (channelBinding : Option Bytes) :
    (∀ first, (∀ final,
      outcome prims username password clientRandom channelBinding first final = .ok 0 →
        Genuine prims username password clientRandom channelBinding first final) ↔
      ¬ Continues first) ∧
    ∀ broker principal earlier credentials iterations salt random,
      credentials.get username .sha256 =
        some (.fromPassword prims username password .sha256 iterations salt) →
      let c := Run.run (handle prims broker) (.accepted principal) earlier
      Readable credentials c username channelBinding →
      let (first, final) := replies prims broker credentials c username password clientRandom random
        channelBinding
      outcome prims username password clientRandom channelBinding first final = .ok 0 ∧
        Genuine prims username password clientRandom channelBinding first final := by
  constructor
  · intro first
    constructor
    · intro hmutual hcontinues
      obtain ⟨hok, hforged⟩ :=
        exists_forged hcontinues prims username password clientRandom channelBinding
      exact hforged (hmutual _ hok)
    · intro hstops final hok
      obtain ⟨serverFirst, parsed, -, ⟨response, hfirst, hcode, htext⟩, hparsed, -⟩ :=
        (outcome_eq_ok_iff ..).mp hok
      exact absurd ⟨response, serverFirst, parsed, hfirst, hcode, htext, hparsed⟩ hstops
  · intro broker principal earlier credentials iterations salt random hstored c hreadable
    exact genuine_replies
      (Run.run_invariant (fun _ input h => h.handle input) unbound_accepted earlier)
        hstored hreadable

theorem mutual_alice :
    let (first, final) := replies .zero certified (.single (alice .zero))
      (.accepted "User:ANONYMOUS".toList) "alice".toList "secret".toList (replicate 18 0)
      (replicate 18 1) none
    outcome .zero "alice".toList "secret".toList (replicate 18 0) none first final = .ok 0 ∧
      Genuine .zero "alice".toList "secret".toList (replicate 18 0) none first final :=
  (mutual_iff_stops .zero "alice".toList "secret".toList (replicate 18 0) none).2 certified
    "User:ANONYMOUS".toList [] (.single (alice .zero)) 4096 [1, 2, 3] (replicate 18 1) rfl
    ⟨rfl, by decide, by decide, Or.inr ⟨rfl, rfl⟩⟩

/-- A nonce of its own and nothing for a signature is enough. -/
theorem not_mutual_forged : ¬ ∃ prims : Primitives,
    let first : Reply := .ok (.success "r=mine,s=,i=1".toList)
    let final : Reply := .ok (.success [])
    outcome prims "alice".toList "secret".toList (replicate 18 0) none first final = .ok 0 →
      Genuine prims "alice".toList "secret".toList (replicate 18 0) none first final := by
  rintro ⟨prims, hmutual⟩
  have hcontinues : Continues (.ok (.success "r=mine,s=,i=1".toList)) :=
    ⟨_, "r=mine,s=,i=1".toList, { nonce := "mine".toList, salt := [], iterations := 1 }, rfl, rfl,
      rfl, by decide⟩
  obtain ⟨hok, hforged⟩ := exists_forged hcontinues prims "alice".toList "secret".toList
    (replicate 18 0) none
  exact hforged (hmutual hok)

end Bifrox.Sasl
