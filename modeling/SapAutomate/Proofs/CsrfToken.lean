/-
The CSRF token of the ADT client (`sap-automate-adt/src/http.rs`).

# Calls by themselves

What a call writes to the cell it has had in a reply, and what it sends
with an activation it has read there (`runCall_poses`).

# Calls side by side

So a token that is sent was in the cell, and one in the cell came with a
reply to a GET, of whatever status (`Kept`). Where each of these carries
only what the server has issued, only that is sent (`tokens_valid`).
-/
import SapAutomate.Adt.Http

namespace SapAutomate.Adt

open Interact

-- ============================================================== headers

theorem get_insert_self (h : HeaderMap) (name : String) (v : HeaderValue) :
    (h.insert name v).get name = some v := by
  have hnone : (h.filter fun x => x.1 ≠ name).lookup name = none := by
    rw [List.lookup_eq_none_iff]
    intro x hx
    have hne := of_decide_eq_true (List.mem_filter.mp hx).2
    exact bne_iff_ne.mpr (Ne.symm hne)
  unfold HeaderMap.insert HeaderMap.get
  rw [List.lookup_append, hnone, List.lookup_cons_self]
  rfl

theorem get_insert_ne (h : HeaderMap) {name name' : String}
    (hne : name' ≠ name) (v : HeaderValue) :
    (h.insert name v).get name' = h.get name' := by
  have hfilter : (h.filter fun x => x.1 ≠ name).lookup name'
      = h.lookup name' := by
    induction h with
    | nil => rfl
    | cons x h ih =>
        by_cases hx : x.1 = name
        · have hbeq : (name' == x.1) = false :=
            beq_eq_false_iff_ne.mpr (hx ▸ hne)
          rw [List.filter_cons_of_neg (by simpa using hx), ih,
            List.lookup_cons, hbeq]
        · rw [List.filter_cons_of_pos (by simpa using hx), List.lookup_cons,
            List.lookup_cons, ih]
  have hone : [(name, v)].lookup name' = none := by
    rw [List.lookup_cons, beq_eq_false_iff_ne.mpr hne]
    rfl
  unfold HeaderMap.insert HeaderMap.get
  rw [List.lookup_append, hfilter, hone, Option.or_none]

theorem headerOf_ok {s : String} {v : HeaderValue} (h : headerOf s = .ok v) :
    v = utf8 s := by
  unfold headerOf HeaderValue.fromStr at h
  split at h
  · next hv =>
      split at hv
      · exact (Except.ok.inj h).symm.trans (Option.some.inj hv).symm
      · cases hv
  · cases h

-- =============================================================== tokens

/-- An exchange of a call. -/
abbrev HttpExchange := Exchange HttpIface

/-- A GET that asks for a token. -/
def isFetch (r : HttpRequest) : Bool :=
  r.method == .get && r.headers.get csrfHeader == some (utf8 "Fetch")

/-- The token that the reply to a GET carries. -/
def carried : HttpExchange → Option String
  | ⟨.send r, .ok reply⟩ => if r.method = .get then reply.csrf else none
  | _ => none

/-- The token that a successful reply to a Fetch request issues. -/
def issues : HttpExchange → Option String
  | ⟨.send r, .ok reply⟩ =>
      if isFetch r && isSuccess reply.status then reply.csrf else none
  | _ => none

/-- The token sent with an activation. -/
def sentToken (d : AdtDestination) : HttpAsk → Option HeaderValue
  | .send r =>
      if r.method = .post ∧ r.url = d.url "/sap/bc/adt/activation" then
        r.headers.get csrfHeader
      else none
  | _ => none

-- ======================================================= calls by themselves

/-- What a call writes it has had in a reply; what it sends with an
activation it has read. -/
def Follows (d : AdtDestination) (h : List HttpExchange) : HttpAsk → Prop
  | .writeCsrf s => ∃ x ∈ h, carried x = some s
  | .send r => ∀ v, sentToken d (.send r) = some v →
      ∃ s, v = utf8 s ∧ (⟨.readCsrf, some s⟩ : HttpExchange) ∈ h
  | _ => True

/-- A question for the token of a service key. -/
def AsksKey (q : HttpAsk) : Prop := ∃ path, q = .serviceKeyToken path

section Calls

variable (std : Std) (d : AdtDestination)

theorem resolveAuthHeader_asks : (resolveAuthHeader d).Asks AsksKey := by
  unfold resolveAuthHeader
  split
  case h_3 => exact ⟨⟨_, rfl⟩, fun _ => trivial⟩
  all_goals trivial

theorem baseHeaders_asks : (baseHeaders d).Asks AsksKey := by
  unfold baseHeaders
  split
  · trivial
  · trivial
  · refine Prog.asks_bind (resolveAuthHeader_asks d) fun a => ?_
    split <;> trivial

theorem baseHeaders_poses (h : List HttpExchange) :
    (baseHeaders d).Poses (Follows d) h :=
  (baseHeaders_asks d).poses (fun _ q hq => by
    obtain ⟨path, rfl⟩ := hq
    trivial) h

/-- A call that starts with the base headers. -/
theorem headed_poses {α : Type} {k : AdtResult HeaderMap → Prog HttpIface α}
    (hk : ∀ a h, (k a).Poses (Follows d) h) (h : List HttpExchange) :
    (baseHeaders d >>= k).Poses (Follows d) h :=
  Prog.poses_bind.mpr ⟨baseHeaders_poses d h,
    Prog.sat_of_left fun tr a _ => hk a (h ++ tr)⟩

/-- A request that is sent and has a reply. -/
theorem send_poses {α : Type} {r : HttpRequest}
    {k : AdtResult HttpReply → Prog HttpIface α} {h : List HttpExchange}
    (hr : Follows d h (.send r))
    (herr : ∀ e h, (k (.error e)).Poses (Follows d) h)
    (hok : ∀ reply, (k (.ok reply)).Poses (Follows d)
      (h ++ [⟨.send r, .ok reply⟩])) :
    (send d r >>= k).Poses (Follows d) h := by
  refine ⟨hr, fun reply => ?_⟩
  cases reply with
  | error reason => exact herr _ _
  | ok reply => exact hok reply

/-- No GET is an activation. -/
theorem follows_get {h : List HttpExchange} {url body : String}
    {headers : HeaderMap} :
    Follows d h (.send ⟨.get, url, headers, body⟩) := by
  intro v hv
  rw [sentToken, if_neg (fun hp => nomatch hp.1)] at hv
  cases hv

/-- What is carried may be written. -/
theorem follows_write {h : List HttpExchange} {r : HttpRequest}
    {reply : HttpReply} {s : String} (hget : r.method = .get)
    (hs : reply.csrf = some s) :
    Follows d (h ++ [⟨.send r, .ok reply⟩]) (.writeCsrf s) := by
  refine ⟨_, List.mem_append_right _ (List.mem_singleton.mpr rfl), ?_⟩
  show (if r.method = .get then reply.csrf else none) = some s
  rw [if_pos hget, hs]

theorem fetchText_poses (path : String) (h : List HttpExchange) :
    (fetchText std d path).Poses (Follows d) h := by
  refine headed_poses d (fun a h => ?_) h
  cases a with
  | error e => trivial
  | ok headers =>
      refine send_poses d (follows_get d) (fun e h => trivial) fun reply => ?_
      dsimp only
      split
      · next token htoken =>
          exact ⟨follows_write d rfl htoken, fun _ => trivial⟩
      · trivial

theorem refreshCsrf_poses (h : List HttpExchange) :
    (refreshCsrf d).Poses (Follows d) h := by
  refine headed_poses d (fun a h => ?_) h
  cases a with
  | error e => trivial
  | ok headers =>
      refine send_poses d (follows_get d) (fun e h => trivial) fun reply => ?_
      dsimp only
      split
      · next token htoken =>
          exact ⟨follows_write d rfl htoken, fun _ => trivial⟩
      · trivial

/-- A POST to another place is no activation. -/
theorem post_poses {path body : String} (hpath : path ≠ "/sap/bc/adt/activation")
    (headers : HeaderMap → HeaderMap) (h : List HttpExchange) :
    (post d (d.url path) headers body).Poses (Follows d) h := by
  refine headed_poses d (fun a h => ?_) h
  cases a with
  | error e => trivial
  | ok base =>
      refine ⟨fun v hv => ?_, fun reply => ?_⟩
      · rw [sentToken, if_neg (fun hp => hpath ?_)] at hv
        · cases hv
        · exact (String.append_right_inj _).mp hp.2
      · cases reply <;> trivial

theorem activateWith_poses (request : ActivationRequest)
    (h : List HttpExchange) :
    (activateWith std d request).Poses (Follows d) h := by
  refine ⟨trivial, fun token => ?_⟩
  cases token with
  | none => trivial
  | some token =>
      show (baseHeaders d >>= _).Poses _ _
      refine Prog.poses_bind.mpr ⟨baseHeaders_poses d _,
        Prog.sat_of_left fun tr a _ => ?_⟩
      cases a with
      | error e => trivial
      | ok base =>
          dsimp only
          split
          · trivial
          · next value hvalue =>
              refine send_poses d (fun v hv => ?_) (fun e h => trivial)
                fun reply => trivial
              rw [sentToken, if_pos ⟨rfl, rfl⟩, get_insert_ne _ (by decide),
                get_insert_self] at hv
              refine ⟨token, ?_, ?_⟩
              · rw [← Option.some.inj hv]
                exact headerOf_ok hvalue
              · exact List.mem_append_left _
                  (List.mem_append_right _ (List.mem_singleton.mpr rfl))

theorem activate_poses (request : ActivationRequest) (readOnly : Bool)
    (h : List HttpExchange) :
    (activate std d request readOnly).Poses (Follows d) h := by
  unfold activate
  split
  · trivial
  · refine Prog.poses_bind.mpr ⟨refreshCsrf_poses d h,
      Prog.sat_of_left fun tr a _ => ?_⟩
    cases a with
    | error e => trivial
    | ok u => exact activateWith_poses std d request _

/-- A call that goes over a text once it has it. -/
theorem texted_poses {α β : Type} {p : Prog HttpIface α} {f : α → β}
    {h : List HttpExchange} (hp : p.Poses (Follows d) h) :
    (p >>= fun a => pure (f a)).Poses (Follows d) h :=
  Prog.poses_bind.mpr ⟨hp, Prog.sat_of_left fun _ _ _ => trivial⟩

/-- A path is another one where it begins otherwise. -/
theorem other_path {s t : String}
    (h : ¬ s.toList.isPrefixOf "/sap/bc/adt/activation".toList) :
    s ++ t ≠ "/sap/bc/adt/activation" := by
  intro heq
  refine h (List.isPrefixOf_iff_prefix.mpr ⟨t.toList, ?_⟩)
  rw [← heq, String.toList_append]

theorem runCall_poses (c : AdtCall) :
    (runCall std d c).Poses (Follows d) [] := by
  cases c with
  | getProgram name => exact texted_poses d (fetchText_poses std d _ _)
  | getClass name => exact texted_poses d (fetchText_poses std d _ _)
  | getInterface name => exact texted_poses d (fetchText_poses std d _ _)
  | getInclude name => exact texted_poses d (fetchText_poses std d _ _)
  | getFunctionModule group name =>
      exact texted_poses d (fetchText_poses std d _ _)
  | getPackageContents package =>
      exact texted_poses d (post_poses d (by decide) _ _)
  | getCdsView name => exact texted_poses d (fetchText_poses std d _ _)
  | search query maxResults => exact texted_poses d (fetchText_poses std d _ _)
  | whereUsed name kind =>
      exact texted_poses d (post_poses d (other_path (by decide)) _ _)
  | getTableContents table maxRows =>
      show (getTableContents std d table maxRows).Poses _ _
      unfold getTableContents
      split
      · trivial
      · refine texted_poses d (post_poses d ?_ _ _)
        rw [String.append_assoc]
        exact other_path (by decide)
  | activate request readOnly => exact activate_poses std d request readOnly []

end Calls

-- ===================================================== calls side by side

/-- An exchange of a run. -/
abbrev HttpMoment := Moment HttpIface World

/-- The server has issued this token, and it is one. -/
def Issued (tr : List HttpMoment) (s : String) : Prop :=
  s ≠ "Required" ∧ ∃ m ∈ tr, issues m.exchange = some s

/-- Each token sent with an activation was issued before. -/
def TokensValid (d : AdtDestination) (tr : List HttpMoment) : Prop :=
  ∀ n m v, tr[n]? = some m → sentToken d m.exchange.query = some v →
    ∃ s, v = utf8 s ∧ Issued (tr.take n) s

/-- Each token that the reply to a GET carries is issued by it, or was
before. -/
def CarriesIssued (tr : List HttpMoment) : Prop :=
  ∀ n (hn : n < tr.length), ∀ s ∈ carried tr[n].exchange,
    Issued (tr.take (n + 1)) s

theorem Issued.mono {tr tr' : List HttpMoment} {s : String}
    (h : Issued tr s) (hsub : tr ⊆ tr') : Issued tr' s := by
  obtain ⟨hs, m, hm, hissues⟩ := h
  exact ⟨hs, m, hsub hm, hissues⟩

theorem CarriesIssued.of_snoc {tr : List HttpMoment} {m : HttpMoment}
    (h : CarriesIssued (tr ++ [m])) : CarriesIssued tr := by
  intro n hn s hs
  have hlt : n < (tr ++ [m]).length := by
    rw [List.length_append]
    omega
  have hget : (tr ++ [m])[n] = tr[n] := List.getElem_append_left hn
  have hissued := h n hlt s (by rw [hget]; exact hs)
  rwa [List.take_append_of_le_length hn] at hissued

/-- What a call has had in a reply was issued. -/
theorem CarriesIssued.issued {tr : List HttpMoment} (h : CarriesIssued tr)
    {m : HttpMoment} (hm : m ∈ tr) {s : String}
    (hs : carried m.exchange = some s) : Issued tr s := by
  obtain ⟨n, hn, rfl⟩ := List.getElem_of_mem hm
  exact (h n hn s hs).mono (List.take_subset _ _)

/-- The state of a client. -/
abbrev ClientPool :=
  Pool HttpIface AdtCall World (Option String) (AdtResult AdtAnswer)

/-- What is in the cell was issued, and so was what was read there. -/
structure Kept (d : AdtDestination) (p : ClientPool) : Prop where
  cell : ∀ s, p.shared = some s → Issued p.trace s
  reads : ∀ n m s, p.trace[n]? = some m →
    m.exchange = ⟨.readCsrf, some s⟩ → Issued (p.trace.take n) s
  sent : TokensValid d p.trace

theorem kept_resume {std : Std} {d : AdtDestination} {p : ClientPool}
    (htracked : p.Tracked (runCall std d)) (hkept : Kept d p) {i : Nat}
    {w : World} {t : Task HttpIface AdtCall (AdtResult AdtAnswer)}
    {q : HttpAsk} {k : HttpIface.Reply q → Prog HttpIface (AdtResult AdtAnswer)}
    (ht : p.tasks[i]? = some t) (hprog : t.prog = .ask q k)
    (hcarries : CarriesIssued p.trace) :
    Kept d ⟨(answer w q p.shared).2,
      p.tasks.set i { t with prog := k (answer w q p.shared).1 },
      p.trace ++ [⟨i, w, ⟨q, (answer w q p.shared).1⟩⟩]⟩ := by
  have hfollows : Follows d (p.own i) q := by
    have hleft := htracked.left i t ht
    rw [hprog] at hleft
    simpa using (runCall_poses std d t.call).left hleft
  have hold : ∀ m : HttpMoment, p.trace ⊆ p.trace ++ [m] :=
    fun m => List.subset_append_left _ _
  have hbefore : ∀ {n : Nat} {m m' : HttpMoment}, p.trace[n]? = some m →
      (p.trace ++ [m']).take n = p.trace.take n := by
    intro n m m' hn
    exact List.take_append_of_le_length
      (List.getElem?_eq_some_iff.mp hn).1.le
  constructor
  · intro s hs
    cases q with
    | writeCsrf token =>
        obtain rfl : token = s := Option.some.inj hs
        obtain ⟨x, hx, hcarried⟩ := hfollows
        obtain ⟨m, hm, -, rfl⟩ := Pool.mem_own.mp hx
        exact (hcarries.issued hm hcarried).mono (hold _)
    | send r => exact (hkept.cell s hs).mono (hold _)
    | serviceKeyToken path => exact (hkept.cell s hs).mono (hold _)
    | readCsrf => exact (hkept.cell s hs).mono (hold _)
  · intro n m s hn hm
    rcases getElem?_snoc.mp hn with hn | ⟨rfl, rfl⟩
    · rw [hbefore hn]
      exact hkept.reads n m s hn hm
    · rw [List.take_left']
      · cases q with
        | readCsrf =>
            injection hm with _ hcell
            exact hkept.cell s hcell
        | _ => cases hm
      · rfl
  · intro n m v hn hv
    rcases getElem?_snoc.mp hn with hn | ⟨rfl, rfl⟩
    · rw [hbefore hn]
      exact hkept.sent n m v hn hv
    · rw [List.take_left' rfl]
      cases q with
      | send r =>
          obtain ⟨s, rfl, hread⟩ := hfollows v hv
          obtain ⟨m, hm, -, hmx⟩ := Pool.mem_own.mp hread
          obtain ⟨n', hn'⟩ := List.mem_iff_getElem?.mp hm
          exact ⟨s, rfl, (hkept.reads n' m s hn' hmx).mono
            (List.take_subset _ _)⟩
      | _ => cases hv

/-- Where the replies to GETs carry only what was issued, only that is
sent. -/
theorem tokens_valid (std : Std) (d : AdtDestination) {p : ClientPool}
    (hp : (clientMachine std d).Reachable p) (h : CarriesIssued p.trace) :
    TokensValid d p.trace := by
  have hkept : p.Tracked (runCall std d)
      ∧ (CarriesIssued p.trace → Kept d p) := by
    refine hp.invariant (I := fun p => p.Tracked (runCall std d)
      ∧ (CarriesIssued p.trace → Kept d p))
      ⟨Pool.tracked_empty _ _, fun _ => ?_⟩ ?_
    · exact ⟨fun s hs => (nomatch hs), fun n m s hn => (nomatch hn),
        fun n m v hn => (nomatch hn)⟩
    · rintro a p p' ⟨htracked, hkept⟩ hstep
      rcases poolMachine_step hstep with
        ⟨c, rfl, rfl⟩ | ⟨i, w, t, q, k, rfl, ht, hprog, rfl⟩
      · exact ⟨htracked.spawn c, fun h =>
          ⟨(hkept h).cell, (hkept h).reads, (hkept h).sent⟩⟩
      · have hres : p.resume (.always answer) i w = some _ := hstep
        exact ⟨htracked.resume hres, fun h =>
          kept_resume htracked (hkept h.of_snoc) ht hprog h.of_snoc⟩
  exact (hkept.2 h).sent

-- ============================================================= examples

/-- Case mappings of ASCII, and status codes by their numbers. -/
def asciiStd : Std := ⟨String.toLower, String.toUpper, fun n => toString n⟩

/-- `AdtDestination::mock`. -/
def mockDestination (name : String) : AdtDestination :=
  ⟨name, "https://mock.sap.example", "100", "EN", .mock⟩

/-- A server that replies with a status and a token. -/
def replying (status : Nat) (token : String) : World where
  reply := fun _ => .ok ⟨status, [(csrfHeader, utf8 token)], .ok ""⟩
  serviceKeyToken := fun _ => .error .csrfRefresh

/-- An activation: the refresh, the cell written and read, and the POST. -/
def activationRun (w : World) : List (PoolAct AdtCall World) :=
  .spawn (.activate ⟨"ZFOO", .program⟩ false)
    :: List.replicate 4 (.resume 0 w)

/-- The state after it. -/
def afterActivation (w : World) : ClientPool :=
  ((clientMachine asciiStd (mockDestination "dev")).run (activationRun w)
    (clientMachine asciiStd (mockDestination "dev")).init).getD
    (clientMachine asciiStd (mockDestination "dev")).init

theorem afterActivation_reachable {w : World}
    (h : ((clientMachine asciiStd (mockDestination "dev")).run
      (activationRun w)
      (clientMachine asciiStd (mockDestination "dev")).init).isSome) :
    (clientMachine asciiStd (mockDestination "dev")).Reachable
      (afterActivation w) := by
  refine ⟨activationRun w, ?_⟩
  obtain ⟨p, hp⟩ := Option.isSome_iff_exists.mp h
  rw [Machine.Runs, afterActivation, hp]
  rfl

/-- A token that is issued is sent. -/
theorem issued_token_valid :
    (afterActivation (replying 200 "T1")).trace.length = 4
      ∧ TokensValid (mockDestination "dev")
        (afterActivation (replying 200 "T1")).trace :=
  ⟨by decide, tokens_valid asciiStd (mockDestination "dev")
    (afterActivation_reachable (by decide)) (by
      unfold CarriesIssued Issued
      decide)⟩

/-- The marker of a reply that refuses is sent as a token. -/
theorem refusal_is_sent : ¬ ∀ (std : Std) (d : AdtDestination)
    (p : ClientPool), (clientMachine std d).Reachable p →
    TokensValid d p.trace := by
  intro h
  have hvalid := h asciiStd (mockDestination "dev") _
    (afterActivation_reachable (w := replying 403 "Required")
      (by decide))
  have hsent : ((afterActivation (replying 403 "Required")).trace[3]?.bind
      fun m => sentToken (mockDestination "dev") m.exchange.query)
        = some (utf8 "Required") := by decide
  obtain ⟨m, hm, hv⟩ := Option.bind_eq_some_iff.mp hsent
  obtain ⟨s, -, -, m', hm', hissues⟩ := hvalid 3 m _ hm hv
  have hnone : ∀ m ∈ (afterActivation (replying 403 "Required")).trace.take 3,
      issues m.exchange = none := by decide
  rw [hnone m' hm'] at hissues
  cases hissues

end SapAutomate.Adt
