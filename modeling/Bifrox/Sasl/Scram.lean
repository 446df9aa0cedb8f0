/-
SCRAM credentials and messages (`src/scram.rs`, the message functions of
`src/server/handler.rs` and `src/client.rs`).

The primitives of `ring` are a parameter: any functions whose HMAC has the length of
the mechanism's digest.
-/
import Mathlib.Algebra.Group.Nat.Defs
import Bifrox.Lib.Base64
import Bifrox.Lib.Decimal
import Bifrox.Lib.Text

namespace Bifrox.Sasl

open List Option Text Base64

abbrev Bytes : Type := List UInt8

/-! ## Mechanisms and primitives -/

inductive ScramMechanism where
  | sha256
  | sha512
deriving DecidableEq

def ScramMechanism.outputLen : ScramMechanism → Nat
  | .sha256 => 32
  | .sha512 => 64

/-- `ScramMechanism::from_str`.  It does not know the `-PLUS` names. -/
def ScramMechanism.fromStr (name : Text) : Option ScramMechanism :=
  if asciiUpper (trim name) ∈
      ["SCRAM-SHA-256".toList, "SHA-256".toList, "SHA256".toList] then
    some .sha256
  else if asciiUpper (trim name) ∈
      ["SCRAM-SHA-512".toList, "SHA-512".toList, "SHA512".toList] then
    some .sha512
  else none

/-- The functions of `ring` that SCRAM is built on. -/
structure Primitives where
  digest : ScramMechanism → Bytes → Bytes
  hmac : ScramMechanism → (key data : Bytes) → Bytes
  pbkdf2 : ScramMechanism → (iterations : UInt32) → (salt password : Bytes) → Bytes
  length_hmac : ∀ mechanism key data, (hmac mechanism key data).length = mechanism.outputLen

def asBytes (text : Text) : Bytes := text.utf8

def defaultScramSha256Iterations : UInt32 := 4096

def hexEncode (bytes : Bytes) : Text :=
  bytes.flatMap fun byte => [Nat.digitChar (byte.toNat / 16), Nat.digitChar (byte.toNat % 16)]

def xorBytes (left right : Bytes) : Bytes := List.zipWith (· ^^^ ·) left right

/-- `constant_time_eq`: equality, whatever time it takes. -/
def constantTimeEq (left right : Bytes) : Bool := left == right

/-! ## Credentials -/

structure ScramCredential where
  username : Text
  mechanism : ScramMechanism
  iterations : UInt32
  salt : Bytes
  storedKey : Bytes
  serverKey : Bytes

section Credential

variable (prims : Primitives) (mechanism : ScramMechanism) (password : Text)

/-- `derive_scram_salted_password_with`; `derive_scram_salted_password` is its SHA-256
case. -/
def deriveScramSaltedPassword (salt : Bytes) (iterations : UInt32) : Bytes :=
  prims.pbkdf2 mechanism (if iterations = 0 then defaultScramSha256Iterations else iterations) salt
    (asBytes password)

def scramClientKey (salt : Bytes) (iterations : UInt32) : Bytes :=
  prims.hmac mechanism (deriveScramSaltedPassword prims mechanism password salt iterations)
    (asBytes "Client Key".toList)

def scramServerKey (salt : Bytes) (iterations : UInt32) : Bytes :=
  prims.hmac mechanism (deriveScramSaltedPassword prims mechanism password salt iterations)
    (asBytes "Server Key".toList)

def ScramCredential.fromPassword (username password : Text) (mechanism : ScramMechanism)
    (iterations : UInt32) (salt : Bytes) : ScramCredential where
  username := username
  mechanism := mechanism
  iterations := iterations
  salt := salt
  storedKey := prims.digest mechanism (scramClientKey prims mechanism password salt iterations)
  serverKey := scramServerKey prims mechanism password salt iterations

variable (credential : ScramCredential)

def ScramCredential.verifyPassword (password : Text) : Bool :=
  let candidate := fromPassword prims credential.username password credential.mechanism
    credential.iterations credential.salt
  constantTimeEq candidate.storedKey credential.storedKey &&
    constantTimeEq candidate.serverKey credential.serverKey

def ScramCredential.verifyClientProof (authMessage : Text) (proof : Bytes) : Bool :=
  let clientSignature := prims.hmac credential.mechanism credential.storedKey (asBytes authMessage)
  if clientSignature.length ≠ proof.length then false
  else
    constantTimeEq (prims.digest credential.mechanism (xorBytes proof clientSignature))
      credential.storedKey

def ScramCredential.buildServerFinal (authMessage : Text) : Text :=
  "v=".toList ++
    encode (prims.hmac credential.mechanism credential.serverKey (asBytes authMessage))

end Credential

/-- The stored credentials.  A credential is kept under its own user name and
mechanism. -/
structure ScramCredentials where
  get : Text → ScramMechanism → Option ScramCredential
  keyed : ∀ username mechanism credential, get username mechanism = some credential →
    credential.username = username ∧ credential.mechanism = mechanism

/-- `lookup_scram_credential`: without a negotiated mechanism, SHA-512 comes first. -/
def ScramCredentials.lookup (credentials : ScramCredentials) (username : Text) :
    Option ScramMechanism → Option ScramCredential
  | some mechanism => credentials.get username mechanism
  | none => (credentials.get username .sha512).or (credentials.get username .sha256)

/-! ## Channel binding -/

def bindingHeader : Bytes := asBytes "p=tls-server-end-point,,".toList

def noBindingHeader : Bytes := asBytes "n,,".toList

def encodeChannelBinding : Option Bytes → Text
  | some data => encode (bindingHeader ++ data)
  | none => encode noBindingHeader

def verifyChannelBinding (cValue : Text) (expectedBinding : Option Bytes) : Bool :=
  match decode cValue with
  | none => false
  | some decoded =>
    match expectedBinding with
    | some binding =>
      if bindingHeader <+: decoded then
        constantTimeEq (decoded.drop bindingHeader.length) binding
      else false
    | none => decoded == noBindingHeader || decoded == asBytes "y,,".toList

/-! ## The server's reading of messages -/

variable (authText : Text)

def isScramClientFirst : Bool :=
  decide ("n=".toList <:+: authText) && decide ("r=".toList <:+: authText) &&
    !decide ("p=".toList <:+: authText)

def isScramClientFinal : Bool :=
  decide ("c=".toList <:+: authText) && decide ("r=".toList <:+: authText) &&
    decide ("p=".toList <:+: authText)

structure ScramClientFirst where
  username : Text
  clientNonce : Text
  clientFirstBare : Text

def parseScramClientFirst : Option ScramClientFirst := do
  let bare ← fromFirst "n=".toList authText
  let username ← lastTagged "n=".toList bare
  let nonce ← lastTagged "r=".toList bare
  some { username := username, clientNonce := nonce, clientFirstBare := bare }

structure ScramClientFinal where
  nonce : Text
  proof : Bytes
  withoutProof : Text
  channelBinding : Text

/-- The parts of a client-final message that its proof covers. -/
def withoutProof : Text :=
  [','].intercalate ((authText.splitOn ',').filter fun part =>
    "c=".toList.isPrefixOf part || "r=".toList.isPrefixOf part)

def parseScramClientFinal : Option ScramClientFinal := do
  let channelBinding ← lastTagged "c=".toList authText
  let proofText ← lastTagged "p=".toList authText
  let proof ← decode proofText
  let nonce ← lastTagged "r=".toList authText
  some
    { nonce := nonce
      proof := proof
      withoutProof := withoutProof authText
      channelBinding := channelBinding }

def parsePlainAuth : Text × Text :=
  match (authText.splitOn (Char.ofNat 0)).filter (· ≠ []) with
  | username :: password :: _ => (username, password)
  | _ =>
    if ':' ∈ authText then
      (authText.takeWhile (· ≠ ':'), (authText.dropWhile (· ≠ ':')).tail)
    else ([], [])

def authMessage (clientFirstBare serverFirst withoutProof : Text) : Text :=
  clientFirstBare ++ ',' :: serverFirst ++ ',' :: withoutProof

def serverFirstMessage (combinedNonce : Text) (credential : ScramCredential) : Text :=
  "r=".toList ++ combinedNonce ++ ",s=".toList ++ encode credential.salt ++ ",i=".toList ++
    Nat.toDigits 10 credential.iterations.toNat

/-! ## The client's messages -/

variable (channelBinding : Option Bytes)

def gs2Header : Text :=
  if channelBinding.isSome then "p=tls-server-end-point,,".toList else "n,,".toList

def clientFirstBare (username clientNonce : Text) : Text :=
  "n=".toList ++ username ++ ",r=".toList ++ clientNonce

def clientFirst (username clientNonce : Text) : Text :=
  gs2Header channelBinding ++ clientFirstBare username clientNonce

inductive ClientError where
  | io
  | invalidUtf8
  | saltMissing
  | saltInvalid
  | nonceMissing
  | iterationsMissing
deriving DecidableEq

structure ScramServerFirst where
  nonce : Text
  salt : Bytes
  iterations : UInt32
deriving DecidableEq

def parseScramServerFirst (serverFirst : Text) : Except ClientError ScramServerFirst :=
  match lastTagged "s=".toList serverFirst with
  | none => .error .saltMissing
  | some saltText =>
    match decode saltText with
    | none => .error .saltInvalid
    | some salt =>
      match lastTagged "r=".toList serverFirst with
      | none => .error .nonceMissing
      | some nonce =>
        match (lastTagged "i=".toList serverFirst).bind (Decimal.parseBelow (2 ^ 32)) with
        | none => .error .iterationsMissing
        | some iterations =>
          .ok { nonce := nonce, salt := salt, iterations := UInt32.ofNat iterations }

def clientFinalWithoutProof (combinedNonce : Text) : Text :=
  "c=".toList ++ encodeChannelBinding channelBinding ++ ",r=".toList ++ combinedNonce

/-- `build_scram_client_final`.  It always uses SHA-256. -/
def buildScramClientFinal (prims : Primitives) (password clientFirstBare serverFirst : Text)
    (parsed : ScramServerFirst) (channelBinding : Option Bytes) : Text :=
  let without := clientFinalWithoutProof channelBinding parsed.nonce
  let key := scramClientKey prims .sha256 password parsed.salt parsed.iterations
  let storedKey := prims.digest .sha256 key
  let clientSignature := prims.hmac .sha256 storedKey
    (asBytes (authMessage clientFirstBare serverFirst without))
  without ++ ",p=".toList ++ encode (xorBytes key clientSignature)

/-! ## What is built is read back -/

theorem notMem_hexEncode {c : Char} (hc : ∀ n < 16, Nat.digitChar n ≠ c) (bytes : Bytes) :
    c ∉ hexEncode bytes := by
  intro hmem
  obtain ⟨byte, -, hbyte⟩ := mem_flatMap.mp hmem
  have hlt := byte.toNat_lt
  simp only [mem_cons, not_mem_nil, or_false] at hbyte
  rcases hbyte with h | h <;> exact hc _ (by omega) h.symm

theorem comma_notMem_hexEncode (bytes : Bytes) : ',' ∉ hexEncode bytes :=
  notMem_hexEncode (by decide) bytes

theorem xorBytes_cancel {left right : Bytes} (h : left.length = right.length) :
    xorBytes (xorBytes left right) right = left := by
  induction left generalizing right with
  | nil => rfl
  | cons a left ih =>
    cases right with
    | nil => cases h
    | cons =>
      have hrest := ih (Nat.succ.inj h)
      simp only [xorBytes, zipWith_cons_cons] at hrest ⊢
      rw [hrest, UInt8.xor_assoc, UInt8.xor_self, UInt8.xor_zero]

theorem verifyClientProof_fromPassword {prims : Primitives} {username password message : Text}
    {iterations : UInt32} {salt : Bytes} :
    let key := scramClientKey prims .sha256 password salt iterations
    let signature := prims.hmac .sha256 (prims.digest .sha256 key) (asBytes message)
    (ScramCredential.fromPassword prims username password .sha256 iterations salt).verifyClientProof
      prims message (xorBytes key signature) = true := by
  intro key signature
  have hkey : key.length = signature.length := by
    show (prims.hmac _ _ _).length = (prims.hmac _ _ _).length
    rw [prims.length_hmac, prims.length_hmac]
  have hxor : (xorBytes key signature).length = signature.length := by
    rw [xorBytes, length_zipWith, hkey, Nat.min_self]
  have hcancel := xorBytes_cancel hkey
  show (if signature.length ≠ (xorBytes key signature).length then false
    else constantTimeEq (prims.digest .sha256 (xorBytes (xorBytes key signature) signature))
      (prims.digest .sha256 key)) = true
  rw [if_neg (by simp [hxor]), hcancel]
  simp [constantTimeEq]

theorem length_of_verifyClientProof {prims : Primitives} {credential : ScramCredential}
    {message : Text} {proof : Bytes} (h : credential.verifyClientProof prims message proof = true) :
    proof.length = credential.mechanism.outputLen := by
  unfold ScramCredential.verifyClientProof at h
  rw [← prims.length_hmac credential.mechanism credential.storedKey (asBytes message)]
  by_contra hne
  rw [if_pos (Ne.symm hne)] at h
  cases h

theorem comma_notMem_of_parseScramServerFirst {serverFirst : Text} {parsed : ScramServerFirst}
    (h : parseScramServerFirst serverFirst = .ok parsed) : ',' ∉ parsed.nonce := by
  unfold parseScramServerFirst at h
  split at h
  · cases h
  · split at h
    · cases h
    · split at h
      · cases h
      · next nonce hnonce =>
        split at h
        · cases h
        · rw [← Except.ok.inj h]
          exact comma_notMem_of_lastTagged hnonce

theorem comma_notMem_of_parseScramClientFirst {authText : Text} {first : ScramClientFirst}
    (h : parseScramClientFirst authText = some first) : ',' ∉ first.username := by
  unfold parseScramClientFirst at h
  obtain ⟨bare, -, h⟩ := bind_eq_some_iff.mp h
  obtain ⟨username, husername, h⟩ := bind_eq_some_iff.mp h
  obtain ⟨nonce, -, h⟩ := bind_eq_some_iff.mp h
  rw [← Option.some.inj h]
  exact comma_notMem_of_lastTagged husername

theorem clientFirstBare_eq (username nonce : Text) :
    clientFirstBare username nonce =
      ("n=".toList ++ username) ++ ',' :: ("r=".toList ++ nonce) := by
  simp [clientFirstBare]

theorem fromFirst_clientFirst (username nonce : Text) :
    fromFirst "n=".toList (clientFirst none username nonce) =
      some (clientFirstBare username nonce) := by
  simp [clientFirst, gs2Header, clientFirstBare, fromFirst, cons_prefix_cons]

theorem parseScramClientFirst_clientFirst {username nonce : Text} (huser : ',' ∉ username)
    (hnonce : ',' ∉ nonce) :
    parseScramClientFirst (clientFirst none username nonce) = some
      { username := username
        clientNonce := nonce
        clientFirstBare := clientFirstBare username nonce } := by
  have hname : ',' ∉ "n=".toList ++ username := by simp [huser]
  have hrandom : ',' ∉ "r=".toList ++ nonce := by simp [hnonce]
  have hn : lastTagged "n=".toList (clientFirstBare username nonce) = some username := by
    rw [clientFirstBare_eq, lastTagged_append_comma, lastTagged_of_notMem hrandom,
      lastTagged_of_notMem hname]
    simp [List.isPrefixOf?]
  have hr : lastTagged "r=".toList (clientFirstBare username nonce) = some nonce := by
    rw [clientFirstBare_eq, lastTagged_append_comma, lastTagged_of_notMem hrandom]
    simp [List.isPrefixOf?]
  simp only [parseScramClientFirst, fromFirst_clientFirst, hn, hr, bind_eq_bind, bind_some]

theorem serverFirstMessage_eq (nonce : Text) (credential : ScramCredential) :
    serverFirstMessage nonce credential = (("r=".toList ++ nonce) ++ ',' ::
      ("s=".toList ++ encode credential.salt)) ++ ',' ::
        ("i=".toList ++ Nat.toDigits 10 credential.iterations.toNat) := by
  simp [serverFirstMessage]

theorem parseScramServerFirst_serverFirstMessage {nonce : Text} (hnonce : ',' ∉ nonce)
    {credential : ScramCredential} :
    parseScramServerFirst (serverFirstMessage nonce credential) = .ok
      { nonce := nonce
        salt := credential.salt
        iterations := credential.iterations } := by
  have hr : ',' ∉ "r=".toList ++ nonce := by simp [hnonce]
  have hs : ',' ∉ "s=".toList ++ encode credential.salt := by
    simp [comma_notMem_encode]
  have hi : ',' ∉ "i=".toList ++ Nat.toDigits 10 credential.iterations.toNat := by
    have hdigits : ',' ∉ Nat.toDigits 10 credential.iterations.toNat :=
      fun h => absurd (Decimal.isDigit_of_mem_toDigits h) (by decide)
    simp [hdigits]
  have hsalt : lastTagged "s=".toList (serverFirstMessage nonce credential) =
      some (encode credential.salt) := by
    rw [serverFirstMessage_eq, lastTagged_append_comma, lastTagged_append_comma,
      lastTagged_of_notMem hi, lastTagged_of_notMem hs]
    simp [List.isPrefixOf?]
  have hnonce' : lastTagged "r=".toList (serverFirstMessage nonce credential) =
      some nonce := by
    rw [serverFirstMessage_eq, lastTagged_append_comma, lastTagged_append_comma,
      lastTagged_of_notMem hi, lastTagged_of_notMem hs, lastTagged_of_notMem hr]
    simp [List.isPrefixOf?]
  have hcount : lastTagged "i=".toList (serverFirstMessage nonce credential) =
      some (Nat.toDigits 10 credential.iterations.toNat) := by
    rw [serverFirstMessage_eq, lastTagged_append_comma, lastTagged_of_notMem hi]
    simp [List.isPrefixOf?]
  have hparse := Decimal.parseBelow_toDigits credential.iterations.toNat_lt
  simp only [parseScramServerFirst, hsalt, hnonce', hcount, decode_encode, bind_some,
    hparse, UInt32.ofNat_toNat]

/-! ### Classification -/

theorem isScramClientFirst_eq_false_of_final {authText : Text}
    (h : isScramClientFinal authText = true) : isScramClientFirst authText = false := by
  simp only [isScramClientFinal, Bool.and_eq_true, decide_eq_true_eq] at h
  simp only [isScramClientFirst, h.2, decide_true, Bool.not_true, Bool.and_false]

theorem isScramClientFirst_clientFirst (username : Text) (random : Bytes) :
    isScramClientFirst (clientFirst none username (hexEncode random)) = true ↔
      ¬ "p=".toList <:+: username := by
  have hn : "n=".toList <:+: clientFirst none username (hexEncode random) :=
    ⟨"n,,".toList, username ++ ",r=".toList ++ hexEncode random, by
      simp [clientFirst, gs2Header, clientFirstBare]⟩
  have hr : "r=".toList <:+: clientFirst none username (hexEncode random) :=
    ⟨"n,,n=".toList ++ username ++ [','], hexEncode random, by
      simp [clientFirst, gs2Header, clientFirstBare]⟩
  have hsplit : clientFirst none username (hexEncode random) =
      ("n,,n=".toList ++ username) ++ ',' :: ("r=".toList ++ hexEncode random) := by
    simp [clientFirst, gs2Header, clientFirstBare]
  have hrandom : ¬ "p=".toList <:+: "r=".toList ++ hexEncode random := by
    have hdigits : 'p' ∉ hexEncode random := notMem_hexEncode (by decide) random
    exact not_infix_of_notMem (x := 'p') (by decide) (by simp [hdigits])
  have hname : "p=".toList <:+: "n,,n=".toList ++ username ↔ "p=".toList <:+: username := by
    simp [infix_cons_iff, cons_prefix_cons]
  have hp : "p=".toList <:+: clientFirst none username (hexEncode random) ↔
      "p=".toList <:+: username := by
    rw [hsplit, tag_infix_append (by decide), hname]
    exact or_iff_left hrandom
  simp only [isScramClientFirst, hn, hr, hp, decide_true, Bool.true_and, Bool.not_eq_true',
    decide_eq_false_iff_not]

theorem isScramClientFinal_build {channelBinding nonce proof : Text} :
    isScramClientFinal ("c=".toList ++ channelBinding ++ ",r=".toList ++ nonce ++ ",p=".toList ++
      proof) = true := by
  simp only [isScramClientFinal, Bool.and_eq_true, decide_eq_true_eq]
  refine ⟨⟨⟨[], channelBinding ++ ",r=".toList ++ nonce ++ ",p=".toList ++ proof, ?_⟩,
    ⟨"c=".toList ++ channelBinding ++ [','], nonce ++ ",p=".toList ++ proof, ?_⟩⟩,
    ⟨"c=".toList ++ channelBinding ++ ",r=".toList ++ nonce ++ [','], proof, ?_⟩⟩
  · simp
  · simp
  · simp

/-! ### The client-final message -/

theorem clientFinal_eq (channelBinding nonce proof : Text) :
    "c=".toList ++ channelBinding ++ ",r=".toList ++ nonce ++ ",p=".toList ++ proof =
      (("c=".toList ++ channelBinding) ++ ',' :: ("r=".toList ++ nonce)) ++
        ',' :: ("p=".toList ++ proof) := by
  simp

theorem parseScramClientFinal_build {channelBinding nonce : Text} {proof : Bytes}
    (hbinding : ',' ∉ channelBinding) (hnonce : ',' ∉ nonce) :
    parseScramClientFinal ("c=".toList ++ channelBinding ++ ",r=".toList ++ nonce ++ ",p=".toList ++
      encode proof) = some
      { nonce := nonce
        proof := proof
        withoutProof := "c=".toList ++ channelBinding ++ ",r=".toList ++ nonce
        channelBinding := channelBinding } := by
  have hc : ',' ∉ "c=".toList ++ channelBinding := by simp [hbinding]
  have hr : ',' ∉ "r=".toList ++ nonce := by simp [hnonce]
  have hp : ',' ∉ "p=".toList ++ encode proof := by simp [comma_notMem_encode]
  rw [clientFinal_eq]
  generalize htext : ("c=".toList ++ channelBinding ++ ',' :: ("r=".toList ++ nonce)) ++
    ',' :: ("p=".toList ++ encode proof) = text
  have hparts : ∀ tag, lastTagged tag text =
      ((tag.isPrefixOf? ("p=".toList ++ encode proof)).or
        ((tag.isPrefixOf? ("r=".toList ++ nonce)).or
          (tag.isPrefixOf? ("c=".toList ++ channelBinding)))) := by
    intro tag
    rw [← htext, lastTagged_append_comma, lastTagged_append_comma,
      lastTagged_of_notMem hp, lastTagged_of_notMem hr, lastTagged_of_notMem hc]
  have hcTag : lastTagged "c=".toList text = some channelBinding := by
    rw [hparts]
    simp [List.isPrefixOf?]
  have hrTag : lastTagged "r=".toList text = some nonce := by
    rw [hparts]
    simp [List.isPrefixOf?]
  have hpTag : lastTagged "p=".toList text = some (encode proof) := by
    rw [hparts]
    simp [List.isPrefixOf?]
  have hwithout : withoutProof text = "c=".toList ++ channelBinding ++ ",r=".toList ++ nonce := by
    unfold withoutProof
    rw [← htext, splitOn_append_cons_self, splitOn_append_cons_self,
      splitOn_eq_singleton hc, splitOn_eq_singleton hr, splitOn_eq_singleton hp]
    simp [List.isPrefixOf, List.intercalate]
  simp only [parseScramClientFinal, hcTag, hrTag, hpTag, hwithout, decode_encode,
    bind_eq_bind, bind_some]

end Bifrox.Sasl
