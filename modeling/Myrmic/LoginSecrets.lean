import Myrmic.Machine

/-!
# Login secrets and their providers

A route of the gateway may be guarded by an OIDC configuration.  The browser's session keeps **one record**
for all routes: the challenge of the last login with its PKCE verifier, and the tokens that came of it.  A
request whose stored ID token does not verify under its route's configuration sends the record's refresh
token, or the code of its query with the record's PKCE verifier, to the issuer of that configuration.

The record may be of another provider (`refresh_token_to_other_issuer`).  **If the record a request finds was
set up for the issuer of its route, and a query with the record's state carries a code of that issuer, every
secret goes to the issuer it is from**, and a request is passed on only with an ID token that was verified
under its route's configuration (`secrets_stay_with_issuer`).
-/
namespace Myrmic.Oidc
open Machine

/-- The provider that a route asks its users to log in at. -/
structure OidcConfig where
  issuer : String
  clientId : String
deriving DecidableEq

/-- A refresh token, authorization code or PKCE verifier, with the issuer under whose configuration it
was obtained. -/
structure Secret where
  value : String
  issuer : String
deriving DecidableEq

/-- What the session keeps under its one key. -/
structure Session where
  nonce : String
  csrfToken : String
  pkceVerifier : Secret
  idToken : Option String
  refreshToken : Option Secret

/-- What a provider answers to a token request. -/
structure TokenResponse where
  idToken : Option String
  accessToken : String
  refreshToken : Option String

/-- What the browser brings back from the provider. -/
structure Query where
  code : Secret
  state : String

/-- A request to a route with what the world answers to it. -/
structure Request where
  config : OidcConfig
  query : Option Query
  /-- The session is read, the redirect uri is valid and the provider is discovered. -/
  discovered : Bool
  /-- The random values of a challenge. -/
  nonce : String
  csrfToken : String
  verifier : String
  /-- The answer of the token endpoint, if there is one. -/
  response : Option TokenResponse
  /-- The session store takes what is inserted. -/
  stored : Bool

/-- A request that was passed on to its application, with the ID token that was verified. -/
structure Passed where
  config : OidcConfig
  idToken : String
  nonce : String
deriving DecidableEq

/-- The record of one browser session, with what has been sent and passed on. -/
structure State where
  session : Option Session
  /-- The secrets sent, each with the issuer it was sent to. -/
  sent : List (String × Secret)
  passed : List Passed

def State.initial : State := ⟨none, [], []⟩

/-- The checks of the OIDC library. -/
class Library where
  /-- Issuer, audience, signature and nonce of an ID token. -/
  claims : OidcConfig → String → String → Bool
  /-- The hash of the access token, where the ID token names one. -/
  validateAccessTokenHash : String → String → Bool

export Library (claims validateAccessTokenHash)

/-- A new record with fresh secrets, for the issuer of the route. -/
def setupChallenge (req : Request) : Session :=
  ⟨req.nonce, req.csrfToken, ⟨req.verifier, req.config.issuer⟩, none, none⟩

/-- The login begins only if its record could be stored. -/
def challenge (st : State) (req : Request) : State :=
  if req.stored then { st with session := some (setupChallenge req) } else st

section Guard
variable [Library] {st : State} {req : Request}

/-- The verified ID token, and the session that is stored with it. -/
def storeTokens (req : Request) (session : Session) (response : TokenResponse) :
    Option (String × Session) :=
  match response.idToken with
  | none => none
  | some idToken =>
    if claims req.config idToken session.nonce ∧
        validateAccessTokenHash idToken response.accessToken ∧ req.stored then
      let fresh := response.refreshToken.map (⟨·, req.config.issuer⟩)
      some (idToken, { session with
        idToken := some idToken, refreshToken := fresh.or session.refreshToken })
    else none

/-- The refresh token is sent to the issuer of the **present** route. -/
def refresh (st : State) (req : Request) (session : Session) (token : Secret) : State :=
  let st := { st with sent := (req.config.issuer, token) :: st.sent }
  match req.response.bind (storeTokens req session) with
  | some (idToken, session') =>
    ⟨some session', st.sent, ⟨req.config, idToken, session.nonce⟩ :: st.passed⟩
  | none => st

/-- Code and verifier are sent to the issuer of the present route. -/
def exchangeCode (st : State) (req : Request) (session : Session) (query : Query) : State :=
  if session.csrfToken = query.state then
    let issuer := req.config.issuer
    let st := { st with sent := (issuer, query.code) :: (issuer, session.pkceVerifier) :: st.sent }
    match req.response.bind (storeTokens req session) with
    | some (_, session') => { st with session := some session' }
    | none => st
  else st

/-- One request to a route that demands a login. -/
def applyOidc (st : State) (req : Request) : State :=
  if req.discovered then
    match st.session with
    | none => challenge st req
    | some session =>
      match session.idToken.filter (claims req.config · session.nonce), session.refreshToken with
      | some idToken, _ =>
        { st with passed := ⟨req.config, idToken, session.nonce⟩ :: st.passed }
      | none, some token => refresh st req session token
      | none, none =>
        match req.query with
        | some query => exchangeCode st req session query
        | none => challenge st req
  else st

def step (st : State) (req : Request) : Option State := some (applyOidc st req)

/-- The record was set up for the route's issuer, and a code that comes with its state is of it. -/
def SameIssuer (st : State) (req : Request) : Prop :=
  ∀ session ∈ st.session, session.pkceVerifier.issuer = req.config.issuer ∧
    ∀ query ∈ req.query, session.csrfToken = query.state → query.code.issuer = req.config.issuer

instance (st : State) (req : Request) : Decidable (SameIssuer st req) := by
  unfold SameIssuer
  infer_instance

/-- The refresh token of a record is of the issuer it was set up for. -/
def Session.OneIssuer (session : Session) : Prop :=
  ∀ token ∈ session.refreshToken, token.issuer = session.pkceVerifier.issuer

/-- What is on record is of one issuer, secrets went to their own, and what was passed on was checked. -/
structure Sound (st : State) : Prop where
  session : ∀ session ∈ st.session, session.OneIssuer
  sent : ∀ e ∈ st.sent, e.2.issuer = e.1
  passed : ∀ e ∈ st.passed, claims e.config e.idToken e.nonce = true

/-- What is stored was verified, and keeps to the issuer of the record. -/
theorem storeTokens_spec {ses session' : Session} {idToken : String}
    (h : req.response.bind (storeTokens req ses) = some (idToken, session'))
    (ho : ses.OneIssuer) (hs : ses.pkceVerifier.issuer = req.config.issuer) :
    claims req.config idToken ses.nonce = true ∧ session'.OneIssuer := by
  obtain ⟨resp, -, h⟩ := Option.bind_eq_some_iff.mp h
  unfold storeTokens at h
  split at h
  · cases h
  · split at h <;> cases h
    next hc =>
    refine ⟨hc.1, fun token ht => ?_⟩
    rcases Option.or_eq_some_iff.mp ht with hf | ⟨-, hold⟩
    · obtain ⟨_, -, rfl⟩ := Option.map_eq_some_iff.mp hf
      exact hs.symm
    · exact ho token hold

theorem Sound.challenge (h : Sound st) : Sound (challenge st req) := by
  unfold Oidc.challenge
  split
  · exact ⟨fun _ hs => by cases hs; exact nofun, h.sent, h.passed⟩
  · exact h

theorem Sound.send (h : Sound st) {secret : Secret} (hs : secret.issuer = req.config.issuer) :
    Sound { st with sent := (req.config.issuer, secret) :: st.sent } :=
  ⟨h.session, List.forall_mem_cons.mpr ⟨hs, h.sent⟩, h.passed⟩

theorem Sound.step {st' : State} (h : Sound st) (ha : SameIssuer st req)
    (hst : step st req = some st') : Sound st' := by
  cases hst
  unfold applyOidc
  split
  · split
    · exact h.challenge
    · next ses hse =>
      have hon := h.session ses hse
      obtain ⟨hsa, hqu⟩ := ha ses hse
      split
      · next idToken hid =>
        have hcl := (Option.filter_eq_some_iff.mp hid).2
        exact ⟨h.session, h.sent, List.forall_mem_cons.mpr ⟨hcl, h.passed⟩⟩
      · next token _ hto =>
        have hsen := h.send ((hon token hto).trans hsa)
        unfold refresh
        dsimp only
        split
        · next idToken session' hre =>
          obtain ⟨hcl, hke⟩ := storeTokens_spec hre hon hsa
          exact ⟨fun _ hs => by cases hs; exact hke, hsen.sent,
            List.forall_mem_cons.mpr ⟨hcl, h.passed⟩⟩
        · exact hsen
      · split
        · next query hq =>
          unfold exchangeCode
          split
          · next hsta =>
            have hsen := (h.send hsa).send (hqu query hq hsta)
            dsimp only
            split
            · next session' hre =>
              obtain ⟨-, hke⟩ := storeTokens_spec hre hon hsa
              exact ⟨fun _ hs => by cases hs; exact hke, hsen.sent, h.passed⟩
            · exact hsen
          · exact h
        · exact h.challenge
  · exact h

/-- **Every secret goes to the issuer it is from**, and a request is passed on only with an ID token that
was verified under its route's configuration: in every state of a run in which each request finds a record
of its route's issuer, and a code of that issuer with the record's state. -/
theorem secrets_stay_with_issuer (h : Reached step SameIssuer .initial st) :
    (∀ e ∈ st.sent, e.2.issuer = e.1) ∧
      ∀ e ∈ st.passed, claims e.config e.idToken e.nonce = true := by
  have hs : Sound st := h.holds ⟨nofun, nofun, nofun⟩ Sound.step
  exact ⟨hs.sent, hs.passed⟩

end Guard
namespace Sample

/-- An ID token verifies if it is made of the issuer and the nonce. -/
@[reducible]
def library : Library := ⟨fun config idToken nonce => idToken == config.issuer ++ nonce, fun _ _ => true⟩

def request (issuer : String) (query : Option Query) (response : Option TokenResponse) : Request :=
  ⟨⟨issuer, "app"⟩, query, true, "nonce", "state", "verifier", response, true⟩

/-- A login at the first provider, which hands out a refresh token. -/
def login : List Request :=
  [request "A" none none, request "A" (some ⟨⟨"code", "A"⟩, "state"⟩)
    (some ⟨some "Anonce", "access", some "refresh"⟩)]

end Sample

/-- A login at one provider, and a request that is passed on. -/
theorem login_stays_with_issuer : let _ := Sample.library
    ∃ st, Reached step SameIssuer .initial st ∧ st.passed = [⟨⟨"A", "app"⟩, "Anonce", "nonce"⟩] ∧
      (∀ e ∈ st.sent, e.2.issuer = e.1) ∧
      ∀ e ∈ st.passed, claims e.config e.idToken e.nonce = true := by
  intro _
  have hr : ∃ st, Reached step SameIssuer .initial st ∧
      st.passed = [⟨⟨"A", "app"⟩, "Anonce", "nonce"⟩] :=
    exists_reached (Sample.login ++ [Sample.request "A" none none]) (by decide +kernel)
  obtain ⟨st, h, hp⟩ := hr
  exact ⟨st, h, hp, secrets_stay_with_issuer h⟩

/-- **After the login at the first provider, a request to a route of the second one sends it the first
one's refresh token.** -/
theorem refresh_token_to_other_issuer : let _ := Sample.library
    ∃ st, Reached step (fun _ _ => True) .initial st ∧ ("B", ⟨"refresh", "A"⟩) ∈ st.sent := by
  intro _
  exact exists_reached (Sample.login ++ [Sample.request "B" none none]) (by decide +kernel)

end Myrmic.Oidc
