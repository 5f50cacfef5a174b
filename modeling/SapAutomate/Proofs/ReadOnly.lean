/-
A read-only server never mutates SAP.

The tool side: whatever messages arrive, every call that reaches the SAP
client is made in read-only mode (`serve_asks_readOnly`), and no write
tool is among those kept. The client side: in that mode the mock
executes, and the SOAP client posts, nothing but functions the catalogue
declares as reads. The two meet in `readOnly_server`, over the program
of the whole server with either client plugged in.
-/
import SapAutomate.Server.Tools
import SapAutomate.Soap.Client

namespace SapAutomate.Server

open Interact Json Mcp Rfc Soap Xml

-- ========================================================== registered tools

section Server

variable {O : Iface} (env : Surroundings O) (ctx : ServerContext)

/-- Every registered tool is plain, a plain one marked as writing, or
`sap.rfc.call`. -/
theorem forall_serverTools {Q : ToolDescriptor (ToolIface O) → Prop}
    (hplain : ∀ name, Q (plainTool env name))
    (hwrites : ∀ name, Q (plainTool env name).withWrites)
    (hcall : Q (toolRfcCall ctx env.rfcRequestError)) :
    ∀ d ∈ serverTools env ctx, Q d := by
  simp only [serverTools, ragTools, sapTools, adtTools, graphTools,
    workflowTools, List.forall_mem_append, List.forall_mem_cons, hplain, hwrites,
    hcall, List.not_mem_nil, false_implies, implies_true, and_self]

/-- No two tools have the same name. -/
theorem serverTools_nodup :
    ((serverTools env ctx).map fun d => d.tool.name).Nodup := by
  have hnames : (serverTools env ctx).map (fun d => d.tool.name) = toolNames := rfl
  rw [hnames]
  decide +kernel

/-- What a read-only server keeps: tools registered as reads. -/
theorem mem_buildServer {e : String × ToolDescriptor (ToolIface O)}
    (he : e ∈ (buildServer env ctx true).tools) :
    e.2 ∈ serverTools env ctx ∧ e.1 = e.2.tool.name
      ∧ e.2.exposure = .readOnly := by
  unfold buildServer at he
  obtain ⟨hmem, hname, hallowed⟩ := ServerBuilder.mem_build rfl he
  exact ⟨hmem, hname, ToolDescriptor.isAllowedBy_readOnlyOnly.mp hallowed⟩

/-- No write tool is found. -/
theorem get_writeTool {d : ToolDescriptor (ToolIface O)}
    (hd : d ∈ serverTools env ctx) (hwrites : d.exposure = .writes) :
    (buildServer env ctx true).tools.get d.tool.name = none := by
  unfold ToolMap.get
  rw [Option.map_eq_none_iff, List.find?_eq_none]
  intro e he hname
  obtain ⟨hmem, hkey, hread⟩ := mem_buildServer env ctx he
  have hsame : e.2 = d := by
    refine List.inj_on_of_nodup_map (serverTools_nodup env ctx) hmem hd ?_
    rw [← hkey]
    exact eq_of_beq hname
  rw [hsame, hwrites] at hread
  cases hread

/-- Whatever is asked of a read-only server, it calls in read-only mode
only. -/
theorem serve_asks_readOnly (h : ctx.readOnly = true) (ms : List Message) :
    ((buildServer env ctx true).serve ms).Asks CallsReadOnly := by
  have htools : ∀ d ∈ serverTools env ctx, ∀ args,
      (d.handler args).Asks CallsReadOnly := by
    refine forall_serverTools env ctx (fun name args => ?_)
      (fun name args => ?_) fun args => ?_
    · exact Prog.asks_inr fun _ => trivial
    · exact Prog.asks_inr fun _ => trivial
    · exact rfcCallHandler_asks h env.rfcRequestError args
  exact Server.serve_asks
    (fun e he => htools e.2 (mem_buildServer env ctx he).1)
    (fun req => Prog.asks_inr fun _ => trivial) ms

end Server

-- ================================================================ the mock

/-- What the mock executes in read-only mode is catalogued as a read. -/
theorem mockCallRfc_readOnly {request : RfcCallRequest} {v : Value}
    (h : mockCallRfc request true = .ok v) :
    ∃ fnMeta, findFunction request.function = some fnMeta
      ∧ fnMeta.readOnly = true := by
  unfold mockCallRfc at h
  cases hfind : findFunction request.function with
  | none =>
      rw [hfind] at h
      cases h
  | some fnMeta =>
      rw [hfind] at h
      refine ⟨fnMeta, rfl, ?_⟩
      by_contra hwrite
      rw [Bool.not_eq_true] at hwrite
      simp only [hwrite] at h
      cases h

-- ========================================================= the SOAP client

/-- The request calls this function: its element is the envelope's, and
what is written inside has safe names only. -/
def PostCalls (p : SoapPost) (function : String) : Prop :=
  ∃ params, isSafeName function = true ∧ validateFields params = .ok ()
    ∧ p.soapAction = "\"" ++ rfcNamespace ++ ":" ++ function ++ "\""
    ∧ p.body = buildEnvelope function (writeParams params)

/-- The catalogue's answer about a function. -/
def catalogued (R : Iface) (function language : String)
    (reply : RfcResult RfcFunctionMeta) : Exchange (SoapIface.sum R) :=
  ⟨.inl (.metadata function language), reply⟩

/-- A request sent. -/
def posted (R : Iface) (p : SoapPost) (reply : HttpReply) :
    Exchange (SoapIface.sum R) :=
  ⟨.inl (.post p), reply⟩

/-- Every request sent calls a function, and follows at once upon the
catalogue declaring it as a read. -/
def PostsGated {R : Iface} (tr : List (Exchange (SoapIface.sum R))) : Prop :=
  ∀ pre p reply post, tr = pre ++ posted R p reply :: post →
    ∃ pre' function language fnMeta,
      pre = pre' ++ [catalogued R function language (.ok fnMeta)]
        ∧ fnMeta.readOnly = true ∧ PostCalls p function

section Gate

variable {R : Iface}

theorem postsGated_nil : PostsGated ([] : List (Exchange (SoapIface.sum R))) := by
  intro pre p reply post h
  exact absurd h.symm (by simp)

/-- One exchange that is no post. -/
theorem postsGated_single {x : Exchange (SoapIface.sum R)}
    (hx : ∀ p, x.query ≠ .inl (.post p)) : PostsGated [x] := by
  intro pre p reply post h
  have hmem : posted R p reply ∈ [x] := h ▸ by simp
  exact absurd (congrArg Exchange.query (List.mem_singleton.mp hmem).symm) (hx p)

/-- A read declared, and called at once. -/
theorem postsGated_pair {function language : String} {fnMeta : RfcFunctionMeta}
    (hread : fnMeta.readOnly = true) {p : SoapPost} (hp : PostCalls p function)
    (reply : HttpReply) :
    PostsGated [catalogued R function language (.ok fnMeta),
      posted R p reply] := by
  intro pre p' reply' post h
  match pre, h with
  | [], h =>
      have hquery := congrArg Exchange.query (List.cons_eq_cons.mp h).1
      cases hquery
  | [x], h =>
      obtain ⟨rfl, htail⟩ := List.cons_eq_cons.mp h
      have hquery := congrArg Exchange.query (List.cons_eq_cons.mp htail).1
      cases hquery
      exact ⟨[], function, language, fnMeta, rfl, hread, hp⟩
  | _ :: _ :: pre, h =>
      have hlen := congrArg List.length h
      simp only [List.length_cons, List.length_append, List.length_nil] at hlen
      omega

theorem postsGated_append {tr tr' : List (Exchange (SoapIface.sum R))}
    (h : PostsGated tr) (h' : PostsGated tr') : PostsGated (tr ++ tr') := by
  intro pre p reply post heq
  rcases List.append_eq_append_iff.mp heq with ⟨a, rfl, htr'⟩ | ⟨c, htr, hc⟩
  · obtain ⟨pre', f, l, fnMeta, rfl, hrest⟩ := h' a p reply post htr'
    exact ⟨tr ++ pre', f, l, fnMeta, (List.append_assoc ..).symm, hrest⟩
  · cases c with
    | nil =>
        obtain ⟨pre', f, l, fnMeta, hpre, -⟩ := h' [] p reply post hc.symm
        exact absurd hpre (by simp)
    | cons x c =>
        obtain ⟨rfl, -⟩ := List.cons_eq_cons.mp hc
        exact h pre p reply c htr

/-- The runs of `call_rfc` in read-only mode: refused on the catalogue's
answer alone, or a call of a function declared as a read. -/
inductive ReadOnlyRun (cfg : SoapRfcConfig) (function : String) :
    List (Exchange SoapIface) → RfcResult Value → Prop where
  | refused (reply : RfcResult RfcFunctionMeta) (e : RfcError) :
      ReadOnlyRun cfg function [⟨.metadata function cfg.language, reply⟩]
        (.error e)
  | called (fnMeta : RfcFunctionMeta) (p : SoapPost) (reply : HttpReply)
      (result : RfcResult Value) (hread : fnMeta.readOnly = true)
      (hp : PostCalls p function) :
      ReadOnlyRun cfg function
        [⟨.metadata function cfg.language,
          (.ok fnMeta : RfcResult RfcFunctionMeta)⟩, ⟨.post p, reply⟩] result

/-- There are no others. -/
theorem soapCallRfc_runs (r : Reader) (cfg : SoapRfcConfig)
    (request : RfcCallRequest) :
    (soapCallRfc r cfg request true).Sat (ReadOnlyRun cfg request.function) := by
  unfold soapCallRfc
  intro reply
  show Prog.Sat (Prog.done reply >>= _) _
  rw [Prog.bind_done]
  cases hgate : gate request.function true reply with
  | some e => exact .refused reply e
  | none =>
      obtain ⟨fnMeta, rfl, hread⟩ := gate_none hgate
      dsimp only
      cases hargs : callArgs request.parameters with
      | error e => exact .refused _ e
      | ok args =>
          dsimp only
          cases hkeys : validateKeys (.object args) with
          | error e => exact .refused _ e
          | ok u =>
              show Prog.Sat (invoke r cfg request.function (writeParams args)
                >>= _) _
              unfold invoke
              by_cases hsafe : isSafeName request.function = true
              · rw [if_pos hsafe]
                intro http
                have hp : PostCalls (soapPost cfg request.function
                    (writeParams args)) request.function :=
                  ⟨args, hsafe, hkeys, rfl, rfl⟩
                show Prog.Sat (Prog.done (readReply r cfg request.function http)
                  >>= _) _
                rw [Prog.bind_done]
                cases readReply r cfg request.function http with
                | error e => exact .called fnMeta _ http _ hread hp
                | ok outputs => exact .called fnMeta _ http _ hread hp
              · rw [if_neg hsafe]
                exact .refused _ _

/-- A run of the client posts only as the catalogue allows. -/
theorem soapRfcClient_gated (r : Reader) (cfg : SoapRfcConfig) {call : SapCall}
    (h : call.readOnlyMode = true) :
    ((soapRfcClient r cfg call).inl : Prog (SoapIface.sum R) _).Sat
      fun tr _ => PostsGated tr := by
  refine Prog.sat_inl ?_
  unfold soapRfcClient
  rw [h]
  refine (soapCallRfc_runs r cfg call.request).mono fun tr result hrun => ?_
  cases hrun with
  | refused reply e => exact postsGated_single fun p hp => (nomatch hp)
  | called fnMeta p reply result hread hp => exact postsGated_pair hread hp reply

end Gate

-- =========================================================== the whole server

/-- A read-only server never mutates SAP, whatever messages arrive.

Against the mock, every call that is executed is of a function
catalogued as a read. With the SOAP client, whatever the catalogue and
the endpoint answer, every request sent follows at once upon the
catalogue declaring its function as a read, and a call on any other
answer is refused. And a write tool is unknown to the server. -/
theorem readOnly_server {O : Iface} (env : Surroundings O) {ctx : ServerContext}
    (h : ctx.readOnly = true) :
    (∀ (ms : List Message) {σ : Type} (rest : Env (AuditIface.sum O) σ) (s : σ)
        (call : SapCall) (v : Value),
      (⟨.inl call, (.ok v : RfcResult Value)⟩ : Exchange (ToolIface O))
        ∈ (((buildServer env ctx true).serve ms).exec
          (mockSapClient.sum rest) ((), s)).trace →
      ∃ fnMeta, findFunction call.request.function = some fnMeta
        ∧ fnMeta.readOnly = true)
    ∧ (∀ (ms : List Message) (r : Reader) (cfg : SoapRfcConfig),
      (((buildServer env ctx true).serve ms).interpLeft
        (soapRfcClient r cfg)).Sat fun tr _ => PostsGated tr)
    ∧ (∀ (r : Reader) (cfg : SoapRfcConfig) (request : RfcCallRequest),
      (soapCallRfc r cfg request true).Sat (ReadOnlyRun cfg request.function))
    ∧ ∀ d ∈ serverTools env ctx, d.exposure = .writes →
      ∀ (req : Request) (args : Option Value), req.method = "tools/call" →
        CallToolParams.ofJson (req.params.getD (.object []))
          = some ⟨d.tool.name, args⟩ →
        (buildServer env ctx true).dispatch req
          = .done (.failure req.id (Server.unknownTool d.tool.name).toObject) := by
  refine ⟨fun ms σ rest s call v hmem => ?_, fun ms r cfg => ?_,
    fun r cfg request => soapCallRfc_runs r cfg request,
    fun d hd hwrites req args hmethod hparams => ?_⟩
  · have hcalls := (serve_asks_readOnly env ctx h ms).sat.exec
      (mockSapClient.sum rest) ((), s) _ hmem
    obtain ⟨s', hreply⟩ := (Prog.exec_plays (mockSapClient.sum rest)
      ((buildServer env ctx true).serve ms) ((), s)).of_mem_inl hmem
    have hro : call.readOnlyMode = true := hcalls
    have hexec : mockCallRfc call.request true = .ok v := by
      rw [← hro]
      exact hreply.symm
    exact mockCallRfc_readOnly hexec
  · unfold Prog.interpLeft
    refine (serve_asks_readOnly env ctx h ms).sat_interp postsGated_nil
      (fun tr tr' => postsGated_append) fun q hq => ?_
    cases q with
    | inl call => exact soapRfcClient_gated r cfg hq
    | inr q =>
        intro reply
        exact postsGated_single fun p hp => (nomatch hp)
  · have hget := get_writeTool env ctx hd hwrites
    exact Server.dispatch_unknownTool (p := ⟨d.tool.name, args⟩) hmethod hparams
      hget

/-- Surroundings that do nothing. -/
def idleSurroundings : Surroundings ⟨Empty, fun _ => Empty⟩ where
  body _ := ⟨none, .object [], fun _ => .done (.ok (.text ""))⟩
  methods _ := .done (.ok (.object []))
  callParamsError _ := "invalid"
  rfcRequestError _ := "invalid"

/-- An attempt to activate an object. -/
theorem readOnly_server_activate :
    (buildServer idleSurroundings ⟨true, none⟩ true).dispatch
        ⟨"2.0", .number 1, "tools/call",
          some (.object [("name", .string "abap.adt.activate")])⟩
      = .done (.failure (.number 1)
        ⟨-32202, "unknown tool 'abap.adt.activate'", none⟩) :=
  (readOnly_server idleSurroundings rfl).2.2.2
    (plainTool idleSurroundings "abap.adt.activate").withWrites
    (by simp [serverTools, adtTools]) rfl _ none rfl rfl

end SapAutomate.Server
