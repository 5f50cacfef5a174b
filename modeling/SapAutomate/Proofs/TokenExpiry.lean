/-
Which tokens the caches hand out (`sap-automate-rfc/src/odata.rs`,
`sap-automate-adt/src/http.rs`).

An entry lives as long as its token, but for two grants: one of no time at
all is kept for a second, and one that ends after the last instant is a
panic (`Grantable`). Where no grant is such, no token is served that has
expired; each of them can be.
-/
import SapAutomate.Rfc.TokenCache

namespace SapAutomate.Rfc

variable {E : Type}

/-- How long a token is granted for. -/
def TokenResp.lifetime (tok : TokenResp) : Nat :=
  seconds (tok.expiresIn.getD 3600).toNat

/-- An answer is as it is to be, after these: a token just granted, or one
granted before whose time is not over. -/
def Justified (past : List (TokenRequest E × TokenAnswer E))
    (r : TokenRequest E) : TokenAnswer E → Prop
  | .granted token => ∃ tok, r.response = .ok tok ∧ tok.accessToken = token
  | .cached token => ∃ q tok, (q, .granted token) ∈ past
      ∧ q.response = .ok tok ∧ tok.accessToken = token
      ∧ r.now < q.received + tok.lifetime
  | .failed e => r.response = .error e
  | .panicked => False

/-- All answers of a run are. -/
def Serves : List (TokenRequest E × TokenAnswer E) →
    List (TokenRequest E × TokenAnswer E) → Prop
  | _, [] => True
  | past, x :: log => Justified past x.1 x.2 ∧ Serves (past ++ [x]) log

/-- What a request may be granted: some time, that ends at an instant. -/
def Grantable (limit : Nat) (r : TokenRequest E) : Prop :=
  ∀ tok, r.response = .ok tok →
    tok.expiresIn ≠ some 0 ∧ r.received + seconds tok.ttl ≤ limit

-- ============================================================= one request

theorem seconds_le {m n : Nat} (h : m ≤ n) : seconds m ≤ seconds n :=
  Nat.mul_le_mul h (Nat.le_refl _)

theorem seconds_pos {n : Nat} (h : 0 < n) : 0 < seconds n :=
  Nat.mul_pos h (Nat.zero_lt_succ _)

theorem ttl_le_lifetime {tok : TokenResp} (h : tok.expiresIn ≠ some 0) :
    seconds tok.ttl ≤ tok.lifetime := by
  refine seconds_le (Nat.max_le.mpr ⟨Nat.sub_le _ _, ?_⟩)
  cases hexp : tok.expiresIn with
  | none => decide
  | some n =>
      refine Nat.pos_of_ne_zero fun hzero => h ?_
      have hn : n = 0 := UInt64.toNat_inj.mp (hzero.trans UInt64.toNat_zero.symm)
      exact hexp.trans (congrArg some hn)

/-- What is in the cache has been granted, for as long at least. -/
def HeldBy (past : List (TokenRequest E × TokenAnswer E))
    (cache : Option CachedToken) : Prop :=
  ∀ t ∈ cache, ∃ q tok, (q, .granted t.token) ∈ past ∧ q.response = .ok tok
    ∧ tok.accessToken = t.token ∧ t.expiresAt ≤ q.received + tok.lifetime

theorem HeldBy.more {past : List (TokenRequest E × TokenAnswer E)}
    {cache : Option CachedToken} (h : HeldBy past cache)
    (x : TokenRequest E × TokenAnswer E) : HeldBy (past ++ [x]) cache := by
  intro t ht
  obtain ⟨q, tok, hmem, hrest⟩ := h t ht
  exact ⟨q, tok, List.mem_append_left _ hmem, hrest⟩

/-- The entry that a request is served from. -/
def TokenRequest.entry (r : TokenRequest E) (cache : Option CachedToken) :
    Option CachedToken := cache.filter fun t => r.now < t.expiresAt

theorem requestToken_cached {cache : Option CachedToken} {r : TokenRequest E}
    {t : CachedToken} (h : r.entry cache = some t) (limit : Nat) :
    requestToken limit cache r = (cache, .cached t.token) := by
  unfold requestToken
  rw [← TokenRequest.entry, h]

theorem requestToken_failed {cache : Option CachedToken} {r : TokenRequest E}
    (h : r.entry cache = none) {e : E} (he : r.response = .error e)
    (limit : Nat) : requestToken limit cache r = (cache, .failed e) := by
  unfold requestToken
  rw [← TokenRequest.entry, h, he]

theorem requestToken_fetched {cache : Option CachedToken} {r : TokenRequest E}
    (h : r.entry cache = none) {tok : TokenResp} (htok : r.response = .ok tok)
    (limit : Nat) :
    requestToken limit cache r
      = if r.received + seconds tok.ttl ≤ limit then
          (some ⟨tok.accessToken, r.received + seconds tok.ttl⟩,
            .granted tok.accessToken)
        else (cache, .panicked) := by
  unfold requestToken
  rw [← TokenRequest.entry, h, htok]

theorem requestToken_spec {limit : Nat} {cache : Option CachedToken}
    {past : List (TokenRequest E × TokenAnswer E)} (h : HeldBy past cache)
    {r : TokenRequest E} (hr : Grantable limit r) :
    Justified past r (requestToken limit cache r).2
      ∧ HeldBy (past ++ [(r, (requestToken limit cache r).2)])
        (requestToken limit cache r).1 := by
  cases ht : r.entry cache with
  | some t =>
      obtain ⟨hcache, hnow⟩ := Option.filter_eq_some_iff.mp ht
      obtain ⟨q, tok, hmem, hresp, htok, hexp⟩ := h t hcache
      have hlt : r.now < q.received + tok.lifetime :=
        Nat.lt_of_lt_of_le (of_decide_eq_true hnow) hexp
      rw [requestToken_cached ht]
      exact ⟨⟨q, tok, hmem, hresp, htok, hlt⟩, h.more _⟩
  | none =>
      cases htok : r.response with
      | error e =>
          rw [requestToken_failed ht htok]
          exact ⟨htok, h.more _⟩
      | ok tok =>
          obtain ⟨hexp, hlimit⟩ := hr tok htok
          have hle := ttl_le_lifetime hexp
          rw [requestToken_fetched ht htok, if_pos hlimit]
          refine ⟨⟨tok, htok, rfl⟩, fun t ht => ?_⟩
          rw [← Option.some.inj ht]
          exact ⟨r, tok, List.mem_append_right _ List.mem_cons_self, htok, rfl,
            Nat.add_le_add (Nat.le_refl r.received) hle⟩

-- ================================================================== runs

theorem serviceKeyToken_serves {limit : Nat} {rs : List (TokenRequest E)}
    (hrs : ∀ r ∈ rs, Grantable limit r)
    {past : List (TokenRequest E × TokenAnswer E)} {cache : Option CachedToken}
    (h : HeldBy past cache) :
    Serves past (requestTokens (serviceKeyToken limit) cache rs) := by
  induction rs generalizing past cache with
  | nil => exact trivial
  | cons r rs ih =>
      obtain ⟨hr, hrest⟩ := List.forall_mem_cons.mp hrs
      obtain ⟨hjust, hheld⟩ := requestToken_spec h hr
      exact ⟨hjust, ih hrest hheld⟩

theorem oauthToken_eq {limit : Nat} {cache : Option CachedToken}
    {r : TokenRequest E} (h : (requestToken limit cache r).2 ≠ .panicked) :
    oauthToken limit ⟨cache, false⟩ r
      = (⟨(requestToken limit cache r).1, false⟩,
        (requestToken limit cache r).2) := by
  unfold oauthToken
  rw [if_neg Bool.false_ne_true]
  split
  · next heq =>
    rw [heq] at h
    exact absurd rfl h
  · next heq => rw [heq]

theorem oauthToken_serves {limit : Nat} {rs : List (TokenRequest E)}
    (hrs : ∀ r ∈ rs, Grantable limit r)
    {past : List (TokenRequest E × TokenAnswer E)} {cache : Option CachedToken}
    (h : HeldBy past cache) :
    Serves past (requestTokens (oauthToken limit) ⟨cache, false⟩ rs) := by
  induction rs generalizing past cache with
  | nil => exact trivial
  | cons r rs ih =>
      obtain ⟨hr, hrest⟩ := List.forall_mem_cons.mp hrs
      obtain ⟨hjust, hheld⟩ := requestToken_spec h hr
      have heq : oauthToken limit ⟨cache, false⟩ r = _ :=
        oauthToken_eq fun hpanic => by
          rw [hpanic] at hjust
          exact hjust
      unfold requestTokens
      rw [heq]
      exact ⟨hjust, ih hrest hheld⟩

/-- The request again, when its token has just been received. -/
def TokenRequest.repeated (r : TokenRequest E) : TokenRequest E :=
  { r with now := r.received }

/-- What comes of a request that is not to be granted, and of it again. -/
theorem requestToken_ungrantable {limit : Nat} {r : TokenRequest E}
    (h : ¬ Grantable limit r) :
    (requestToken limit none r).2 = .panicked
      ∨ ∃ tok t, r.response = .ok tok ∧ tok.expiresIn = some 0
        ∧ requestToken limit none r = (some t, .granted tok.accessToken)
        ∧ (requestToken limit (some t) r.repeated).2 = .cached t.token := by
  cases htok : r.response with
  | error e => exact absurd (fun tok h => nomatch htok.symm.trans h) h
  | ok tok =>
      have hgrant := requestToken_fetched (show r.entry none = none from rfl) htok limit
      by_cases hlimit : r.received + seconds tok.ttl ≤ limit
      · rw [if_pos hlimit] at hgrant
        have hzero : tok.expiresIn = some 0 := by
          refine Decidable.byContradiction fun hne => h fun tok' htok' => ?_
          obtain rfl := Except.ok.inj (htok.symm.trans htok')
          exact ⟨hne, hlimit⟩
        refine .inr ⟨tok, _, rfl, hzero, hgrant, ?_⟩
        have hlater : r.repeated.now < r.received + seconds tok.ttl :=
          Nat.lt_add_of_pos_right (seconds_pos (Nat.le_max_right _ _))
        rw [requestToken_cached (Option.filter_some_pos (decide_eq_true hlater))]
      · rw [if_neg hlimit] at hgrant
        exact .inl (congrArg Prod.snd hgrant)

/-- A token of no time at all is not to be served. -/
theorem not_justified_zero {r : TokenRequest E} {tok : TokenResp}
    (htok : r.response = .ok tok) (hzero : tok.expiresIn = some 0)
    {token : String} :
    ¬ Justified [(r, .granted tok.accessToken)] r.repeated (.cached token) := by
  rintro ⟨q, tok', hmem, hresp, -, hlt⟩
  obtain ⟨rfl, -⟩ := Prod.mk.inj (List.mem_singleton.mp hmem)
  obtain rfl := Except.ok.inj (htok.symm.trans hresp)
  have hlife : tok.lifetime = 0 := by
    rw [TokenResp.lifetime, hzero]
    rfl
  rw [hlife] at hlt
  exact Nat.lt_irrefl _ hlt

theorem serviceKeyToken_fails {limit : Nat} {r : TokenRequest E}
    (h : ¬ Grantable limit r) :
    ¬ Serves [] (requestTokens (serviceKeyToken limit) none [r, r.repeated]) := by
  rintro ⟨hfirst, hsecond, -⟩
  rcases requestToken_ungrantable h with hpanic | ⟨tok, t, htok, hzero, hgrant, hcached⟩
  · change Justified [] r (requestToken limit none r).2 at hfirst
    rw [hpanic] at hfirst
    exact hfirst
  · change Justified [(r, (requestToken limit none r).2)] r.repeated
      (requestToken limit (requestToken limit none r).1 r.repeated).2 at hsecond
    rw [hgrant, hcached] at hsecond
    exact not_justified_zero htok hzero hsecond

theorem oauthToken_fails {limit : Nat} {r : TokenRequest E}
    (h : ¬ Grantable limit r) :
    ¬ Serves [] (requestTokens (oauthToken limit) ⟨none, false⟩
      [r, r.repeated]) := by
  rintro ⟨hfirst, hsecond, -⟩
  rcases requestToken_ungrantable h with hpanic | ⟨tok, t, htok, hzero, hgrant, hcached⟩
  · have heq : (oauthToken limit ⟨none, false⟩ r).2 = .panicked := by
      have hpair : requestToken limit none r
          = ((requestToken limit none r).1, .panicked) := Prod.ext rfl hpanic
      unfold oauthToken
      rw [if_neg Bool.false_ne_true]
      dsimp only
      rw [hpair]
    change Justified [] r (oauthToken limit ⟨none, false⟩ r).2 at hfirst
    rw [heq] at hfirst
    exact hfirst
  · have heq : oauthToken limit ⟨none, false⟩ r = _ :=
      oauthToken_eq (by rw [hgrant]; exact nofun)
    have heq' : oauthToken limit ⟨some t, false⟩ r.repeated = _ :=
      oauthToken_eq (by rw [hcached]; exact nofun)
    rw [hgrant] at heq
    rw [hcached] at heq'
    change Justified [(r, (oauthToken limit ⟨none, false⟩ r).2)] r.repeated
      (oauthToken limit (oauthToken limit ⟨none, false⟩ r).1 r.repeated).2
      at hsecond
    rw [heq, heq'] at hsecond
    exact not_justified_zero htok hzero hsecond

/-- Where every grant is of some time that ends at an instant, no run
serves a token that has expired. And a grant that is not is enough for one
that does, or that panics. -/
theorem tokens_served_unexpired (limit : Nat) :
    (∀ rs : List (TokenRequest E), (∀ r ∈ rs, Grantable limit r) →
      Serves [] (requestTokens (oauthToken limit) ⟨none, false⟩ rs)
        ∧ Serves [] (requestTokens (serviceKeyToken limit) none rs))
      ∧ ∀ r : TokenRequest E, ¬ Grantable limit r →
        ¬ Serves [] (requestTokens (oauthToken limit) ⟨none, false⟩
            [r, r.repeated])
          ∧ ¬ Serves [] (requestTokens (serviceKeyToken limit) none
            [r, r.repeated]) :=
  ⟨fun _ hrs => ⟨oauthToken_serves hrs nofun, serviceKeyToken_serves hrs nofun⟩,
    fun _ hr => ⟨oauthToken_fails hr, serviceKeyToken_fails hr⟩⟩

/-- A request granted an hour, and the same one again. -/
def hourly : TokenRequest Unit := ⟨0, .ok ⟨"t", none⟩, 0⟩

theorem hourly_served :
    Serves [] (requestTokens (oauthToken (seconds 86400)) ⟨none, false⟩
      [hourly, hourly.repeated]) := by
  refine ((tokens_served_unexpired (seconds 86400)).1 _ fun r hr => ?_).1
  have hr : r = hourly := by simpa [TokenRequest.repeated, hourly] using hr
  rw [hr]
  rintro tok htok
  obtain rfl := Except.ok.inj htok
  exact ⟨nofun, Nat.le_trans (Nat.le_of_eq (Nat.zero_add _))
    (seconds_le (by decide))⟩

/-- A token of no time at all is served again. -/
theorem expired_token_served :
    ¬ ∀ (limit : Nat) (rs : List (TokenRequest Unit)),
      (rs.flatMap fun r => [r.now, r.received]).Pairwise (· ≤ ·) →
        Serves [] (requestTokens (oauthToken limit) ⟨none, false⟩ rs) := by
  intro h
  have hnot : ¬ Grantable (seconds 1) (⟨0, .ok ⟨"t", some 0⟩, 0⟩ : TokenRequest Unit) :=
    fun hgrant => (hgrant _ rfl).1 rfl
  exact oauthToken_fails hnot (h _ _ (by decide))

end SapAutomate.Rfc
