/-
The caches of access tokens (`sap-automate-rfc/src/odata.rs`,
`sap-automate-adt/src/http.rs`): a token is handed out again as long as
its entry has not expired, and is granted anew after that.

Readings of the clock are nanoseconds. An instant after `limit` cannot be
represented, and adding up to one is a panic.
-/

namespace SapAutomate.Rfc

/-- `CachedToken`. -/
structure CachedToken where
  token : String
  expiresAt : Nat

/-- `TokenResp`. -/
structure TokenResp where
  accessToken : String
  expiresIn : Option UInt64

/-- `Duration::from_secs`. -/
def seconds (n : Nat) : Nat := n * 1000000000

/-- `ttl`, in seconds: a minute less than granted, and at least one. -/
def TokenResp.ttl (tok : TokenResp) : Nat :=
  max ((tok.expiresIn.getD 3600).toNat - 60) 1

/-- A request for a token: when it looks at the cache, what a grant would
bring, and when that would be received. -/
structure TokenRequest (E : Type) where
  now : Nat
  response : Except E TokenResp
  received : Nat

/-- How a request ends. -/
inductive TokenAnswer (E : Type) where
  | cached (token : String)
  | granted (token : String)
  | failed (e : E)
  | panicked

variable {E : Type}

/-- A request of a cache that holds this. -/
def requestToken (limit : Nat) (cache : Option CachedToken)
    (r : TokenRequest E) : Option CachedToken × TokenAnswer E :=
  match cache.filter fun t => r.now < t.expiresAt with
  | some t => (cache, .cached t.token)
  | none =>
    match r.response with
    | .error e => (cache, .failed e)
    | .ok tok =>
      let expiresAt := r.received + seconds tok.ttl
      if expiresAt ≤ limit then
        (some ⟨tok.accessToken, expiresAt⟩, .granted tok.accessToken)
      else (cache, .panicked)

/-- `HttpAdtClient::service_key_token`: its lock is not poisoned. -/
def serviceKeyToken (limit : Nat) (cache : Option CachedToken)
    (r : TokenRequest E) : Option CachedToken × TokenAnswer E :=
  requestToken limit cache r

/-- The `token_cache` of a `BusinessHubClient`. -/
structure TokenMutex where
  cache : Option CachedToken
  poisoned : Bool

/-- `BusinessHubClient::oauth_token`: a poisoned lock is passed by. -/
def oauthToken (limit : Nat) (s : TokenMutex) (r : TokenRequest E) :
    TokenMutex × TokenAnswer E :=
  if s.poisoned then
    match r.response with
    | .error e => (s, .failed e)
    | .ok tok => (s, .granted tok.accessToken)
  else
    match requestToken limit s.cache r with
    | (cache, .panicked) => (⟨cache, true⟩, .panicked)
    | (cache, answer) => (⟨cache, false⟩, answer)

/-- Requests one after the other, each with how it ends. -/
def requestTokens {S : Type}
    (step : S → TokenRequest E → S × TokenAnswer E) :
    S → List (TokenRequest E) → List (TokenRequest E × TokenAnswer E)
  | _, [] => []
  | s, r :: rs => (r, (step s r).2) :: requestTokens step (step s r).1 rs

end SapAutomate.Rfc
