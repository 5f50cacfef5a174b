/-
Listed is callable is allowed.

Whatever the builder is told, and in whatever order, it keeps under a name
the descriptor that was registered last, if the policy set last allows it
(`get_build`). `tools/list` and `tools/call` read this one map: a name is
listed just where a call of it is not refused as unknown.
-/
import SapAutomate.Mcp.Server
import Mathlib.Data.List.Induction

namespace SapAutomate.Mcp

open Interact Json

variable {I : Iface}

-- =============================================================== the map

namespace ToolMap

/-- What is under a name after another descriptor has been put in. -/
theorem get_insert (tools : ToolMap I) (name name' : String)
    (d : ToolDescriptor I) :
    (tools.insert name d).get name'
      = if name = name' then some d else tools.get name' := by
  unfold get insert
  rw [List.find?_append]
  by_cases hname : name = name'
  · subst hname
    have hnone : (tools.filter fun e => e.1 != name).find?
        (fun e => e.1 == name) = none := by
      rw [List.find?_eq_none]
      intro e he
      simpa using (List.mem_filter.mp he).2
    rw [hnone, if_pos rfl]
    simp
  · have hlast : ([(name, d)] : ToolMap I).find? (fun e => e.1 == name')
        = none := by
      simpa using hname
    have hrest : (tools.filter fun e => e.1 != name).find?
        (fun e => e.1 == name') = tools.find? fun e => e.1 == name' := by
      rw [List.find?_filter]
      refine congrArg (fun p => List.find? p tools) (funext fun e => ?_)
      by_cases he : e.1 = name'
      · simp [he, Ne.symm hname]
      · simp [he]
    rw [hlast, hrest, if_neg hname, Option.or_none]

/-- The descriptors are held under their names, each name once. -/
structure Keyed (tools : ToolMap I) : Prop where
  key : ∀ e ∈ tools, e.1 = e.2.tool.name
  nodup : (tools.map Prod.fst).Nodup

theorem keyed_nil : Keyed ([] : ToolMap I) where
  key := by
    intro e he
    cases he
  nodup := List.nodup_nil

theorem Keyed.filter {tools : ToolMap I} (h : Keyed tools)
    (p : String × ToolDescriptor I → Bool) :
    Keyed (List.filter p tools) where
  key := fun e he => h.key e (List.mem_filter.mp he).1
  nodup := h.nodup.sublist (List.filter_sublist.map Prod.fst)

theorem Keyed.insert {tools : ToolMap I} (h : Keyed tools)
    (d : ToolDescriptor I) : Keyed (tools.insert d.tool.name d) where
  key := by
    intro e he
    rcases List.mem_append.mp he with he | he
    · exact h.key e (List.mem_filter.mp he).1
    · rw [List.mem_singleton.mp he]
  nodup := by
    unfold ToolMap.insert
    rw [List.map_append, List.nodup_append]
    refine ⟨(h.filter _).nodup, List.nodup_singleton _, ?_⟩
    intro name hname name' hname' heq
    obtain ⟨e, he, rfl⟩ := List.mem_map.mp hname
    have hne : e.1 ≠ d.tool.name := by
      simpa using (List.mem_filter.mp he).2
    exact hne (heq.trans (List.mem_singleton.mp hname'))

/-- Where each name is there once, a descriptor that is there is found. -/
theorem Keyed.get_eq_some {tools : ToolMap I} (h : Keyed tools)
    {name : String} {d : ToolDescriptor I} :
    tools.get name = some d ↔ (name, d) ∈ tools := by
  unfold get
  constructor
  · intro hget
    obtain ⟨e, he, rfl⟩ := Option.map_eq_some_iff.mp hget
    have hname : e.1 = name := by simpa using List.find?_some he
    rw [← hname]
    exact List.mem_of_find?_eq_some he
  · intro hmem
    cases hfind : tools.find? fun e => e.1 == name with
    | none =>
        have hnone := List.find?_eq_none.mp hfind (name, d) hmem
        simp at hnone
    | some e =>
        have hname : e.1 = name := by simpa using List.find?_some hfind
        have heq : e = (name, d) :=
          List.inj_on_of_nodup_map h.nodup (List.mem_of_find?_eq_some hfind)
            hmem hname
        rw [heq]
        rfl

/-- The descriptors that pass a test. -/
theorem Keyed.get_filter {tools : ToolMap I} (h : Keyed tools)
    (p : ToolDescriptor I → Bool) (name : String) :
    ToolMap.get (List.filter (fun e => p e.2) tools) name
      = (tools.get name).filter p := by
  ext d
  rw [(h.filter _).get_eq_some, List.mem_filter, ← h.get_eq_some,
    Option.filter_eq_some_iff]

end ToolMap

-- =========================================================== the builder

/-- A call of the builder that concerns tools. -/
inductive BuilderOp (I : Iface) where
  | exposure (policy : ExposurePolicy)
  | tool (d : ToolDescriptor I)

namespace BuilderOp

/-- The policy it sets. -/
def policy? : BuilderOp I → Option ExposurePolicy
  | .exposure policy => some policy
  | .tool _ => none

/-- The descriptor it registers. -/
def tool? : BuilderOp I → Option (ToolDescriptor I)
  | .exposure _ => none
  | .tool d => some d

end BuilderOp

/-- A call. -/
def ServerBuilder.apply (b : ServerBuilder I) : BuilderOp I → ServerBuilder I
  | .exposure policy => b.withExposure policy
  | .tool d => b.tool d

/-- The descriptor registered last under a name. -/
def lastRegistered (ops : List (BuilderOp I)) (name : String) :
    Option (ToolDescriptor I) :=
  ((ops.filterMap BuilderOp.tool?).filter fun d =>
    d.tool.name = name).getLast?

/-- The policy set last. -/
def finalPolicy (ops : List (BuilderOp I)) : ExposurePolicy :=
  ((ops.filterMap BuilderOp.policy?).getLast?).getD .readOnlyOnly

/-- What the builder has after these calls. -/
theorem apply_spec (b : ServerBuilder I)
    (hb : b.tools = [] ∧ b.exposure = .readOnlyOnly)
    (ops : List (BuilderOp I)) :
    (ops.foldl ServerBuilder.apply b).exposure = finalPolicy ops
      ∧ (ops.foldl ServerBuilder.apply b).tools.Keyed
      ∧ ∀ name, (ops.foldl ServerBuilder.apply b).tools.get name
        = lastRegistered ops name := by
  induction ops using List.reverseRecOn with
  | nil =>
      show b.exposure = _ ∧ b.tools.Keyed ∧ ∀ name, b.tools.get name = _
      rw [hb.1, hb.2]
      exact ⟨rfl, ToolMap.keyed_nil, fun _ => rfl⟩
  | append_singleton ops op ih =>
      obtain ⟨hpolicy, hkeyed, hget⟩ := ih
      rw [List.foldl_append, List.foldl_cons, List.foldl_nil]
      cases op with
      | exposure policy =>
          refine ⟨?_, hkeyed, fun name => ?_⟩
          · simp [finalPolicy, BuilderOp.policy?, ServerBuilder.apply,
              ServerBuilder.withExposure]
          · refine (hget name).trans ?_
            have hnone : [BuilderOp.exposure (I := I) policy].filterMap
                BuilderOp.tool? = [] := rfl
            unfold lastRegistered
            rw [List.filterMap_append, hnone, List.append_nil]
      | tool d =>
          refine ⟨hpolicy.trans ?_, hkeyed.insert d, fun name => ?_⟩
          · simp [finalPolicy, BuilderOp.policy?]
          · refine (ToolMap.get_insert _ _ _ _).trans ?_
            rw [hget]
            unfold lastRegistered
            rw [List.filterMap_append, List.filter_append]
            by_cases hname : d.tool.name = name
            · simp [BuilderOp.tool?, hname]
            · simp [BuilderOp.tool?, hname]

/-- The server these calls build. -/
def builtBy (others : Request → Prog I (McpResult Value))
    (serdeError : Value → String) (ops : List (BuilderOp I)) : Server I :=
  (ops.foldl ServerBuilder.apply (.new others serdeError)).build

theorem builtBy_keyed (others : Request → Prog I (McpResult Value))
    (serdeError : Value → String) (ops : List (BuilderOp I)) :
    (builtBy others serdeError ops).tools.Keyed :=
  (apply_spec (.new others serdeError) ⟨rfl, rfl⟩ ops).2.1.filter _

/-- Under a name it keeps the last descriptor, if the last policy allows
it. -/
theorem get_build (others : Request → Prog I (McpResult Value))
    (serdeError : Value → String) (ops : List (BuilderOp I)) (name : String) :
    (builtBy others serdeError ops).tools.get name
      = (lastRegistered ops name).filter
        fun d => d.isAllowedBy (finalPolicy ops) := by
  obtain ⟨hpolicy, hkeyed, hget⟩ :=
    apply_spec (.new others serdeError) ⟨rfl, rfl⟩ ops
  unfold builtBy ServerBuilder.build
  rw [hkeyed.get_filter (fun d => d.isAllowedBy _), hget, hpolicy]

-- ============================================================ the answers

/-- The tools in an answer to `tools/list`. -/
def listedTools (answer : Value) : List Value :=
  match answer.get "tools" with
  | some (.array tools) => tools
  | _ => []

/-- The names in it. -/
def listedNames (answer : Value) : List String :=
  (listedTools answer).filterMap fun t => (t.get "name").bind Value.asStr

theorem get_name_toJson (t : Tool) : t.toJson.get "name" = some (.string t.name) := by
  unfold Tool.toJson
  show Map.get _ _ = _
  cases t.description with
  | none =>
      rw [Map.get_ofEntries (by simp)]
      exact Map.get_cons_self ..
  | some d =>
      rw [Map.get_ofEntries (by simp)]
      exact Map.get_cons_self ..

theorem listedTools_toolsList (srv : Server I) :
    listedTools srv.toolsList = srv.tools.map fun e => e.2.tool.toJson := rfl

theorem listedNames_toolsList (srv : Server I) :
    listedNames srv.toolsList = srv.tools.map fun e => e.2.tool.name := by
  unfold listedNames
  rw [listedTools_toolsList, List.filterMap_map]
  refine List.filterMap_eq_map_iff_forall_eq_some.mpr fun e _ => ?_
  show (e.2.tool.toJson.get "name").bind Value.asStr = _
  rw [get_name_toJson]
  rfl

/-- A request to call a tool by this name. -/
def Calls (srv : Server I) (req : Request) (name : String) : Prop :=
  req.method = "tools/call"
    ∧ ∃ p, srv.callToolParams req.params = .ok p ∧ p.name = name

/-- It is refused: there is no such tool. -/
def Refused (srv : Server I) (req : Request) (name : String) : Prop :=
  srv.handleMethod req = .done (.error (Server.unknownTool name))

/-- What a handler returns, as sent. -/
def answered : McpResult CallToolResult → Value
  | .ok result => result.toJson
  | .error e => (CallToolResult.error e.display).toJson

/-- It is answered with what the handler of a descriptor returns. -/
def RunBy (srv : Server I) (req : Request) (d : ToolDescriptor I) : Prop :=
  ∃ args, srv.handleMethod req
    = d.handler args >>= fun r => .done (.ok (answered r))

/-- A call is refused where nothing is under the name, and run by what is
there. -/
theorem calls_cases {srv : Server I} {req : Request} {name : String}
    (h : Calls srv req name) :
    (srv.tools.get name = none ∧ Refused srv req name)
    ∨ ∃ d, srv.tools.get name = some d ∧ RunBy srv req d := by
  obtain ⟨hmethod, p, hparams, rfl⟩ := h
  have hcall : srv.handleMethod req = srv.toolsCall req.params := by
    unfold Server.handleMethod
    rw [hmethod, if_neg (by decide), if_neg (by decide), if_pos rfl]
  unfold Refused RunBy
  rw [hcall]
  unfold Server.toolsCall
  rw [hparams]
  cases hget : srv.tools.get p.name with
  | none => exact .inl ⟨rfl, by simp only [hget]⟩
  | some d =>
      refine .inr ⟨d, rfl, p.arguments.getD (.object []), ?_⟩
      simp only [hget]
      refine congrArg (Prog.bind (d.handler _)) (funext fun r => ?_)
      cases r <;> rfl

/-- What is run is not refused, whatever the environment answers. -/
theorem RunBy.not_refused {srv : Server I} {req : Request}
    {d : ToolDescriptor I} {name : String} (h : RunBy srv req d) :
    ¬ Refused srv req name := by
  obtain ⟨args, hrun⟩ := h
  intro hrefused
  have hok : ∀ p : Prog I (McpResult CallToolResult),
      (p >>= fun r => .done (.ok (answered r)))
        ≠ (.done (.error (Server.unknownTool name)) :
          Prog I (McpResult Value)) := by
    intro p heq
    cases p with
    | done r => cases heq
    | ask q k => cases heq
  exact hok _ (hrun.symm.trans hrefused)

-- ================================================================ the law

/-- The tools listed are those that can be called, each under its name the
last descriptor registered, and allowed; and none of them writes where the
policy is to read only. -/
structure ListedCallable (srv : Server I) (ops : List (BuilderOp I)) :
    Prop where
  names : ∀ req name, Calls srv req name →
    (name ∈ listedNames srv.toolsList ↔ ¬ Refused srv req name)
  bound : ∀ t ∈ listedTools srv.toolsList, ∃ d, t = d.tool.toJson
    ∧ lastRegistered ops d.tool.name = some d
    ∧ d.isAllowedBy (finalPolicy ops) = true
    ∧ ∀ req, Calls srv req d.tool.name → RunBy srv req d
  reads : finalPolicy ops = .readOnlyOnly → ∀ name d,
    lastRegistered ops name = some d → d.exposure = .writes →
    name ∉ listedNames srv.toolsList
      ∧ ∀ req, Calls srv req name → Refused srv req name

theorem mem_listedNames {srv : Server I} (h : srv.tools.Keyed)
    {name : String} :
    name ∈ listedNames srv.toolsList ↔ ∃ d, srv.tools.get name = some d := by
  rw [listedNames_toolsList, List.mem_map]
  constructor
  · rintro ⟨e, he, rfl⟩
    exact ⟨e.2, h.get_eq_some.mpr (h.key e he ▸ he)⟩
  · rintro ⟨d, hget⟩
    have hmem := h.get_eq_some.mp hget
    exact ⟨(name, d), hmem, (h.key _ hmem).symm⟩

/-- The law holds of whatever a sequence of calls builds. -/
theorem listed_callable (others : Request → Prog I (McpResult Value))
    (serdeError : Value → String) (ops : List (BuilderOp I)) :
    ListedCallable (builtBy others serdeError ops) ops := by
  have hkeyed := builtBy_keyed others serdeError ops
  refine ⟨fun req name hcalls => ?_, fun t ht => ?_, ?_⟩
  · rw [mem_listedNames hkeyed]
    rcases calls_cases hcalls with ⟨hnone, hrefused⟩ | ⟨d, hget, hrun⟩
    · constructor
      · rintro ⟨d, hget⟩
        rw [hnone] at hget
        cases hget
      · exact fun hnot => absurd hrefused hnot
    · exact ⟨fun _ => hrun.not_refused, fun _ => ⟨d, hget⟩⟩
  · rw [listedTools_toolsList] at ht
    obtain ⟨e, he, rfl⟩ := List.mem_map.mp ht
    have hget : (builtBy others serdeError ops).tools.get e.2.tool.name
        = some e.2 := hkeyed.get_eq_some.mpr (hkeyed.key e he ▸ he)
    have hlast := hget
    rw [get_build, Option.filter_eq_some_iff] at hlast
    refine ⟨e.2, rfl, hlast.1, hlast.2, fun req hcalls => ?_⟩
    rcases calls_cases hcalls with ⟨hnone, -⟩ | ⟨d, hget', hrun⟩
    · rw [hget] at hnone
      cases hnone
    · rw [hget, Option.some.injEq] at hget'
      exact hget' ▸ hrun
  · intro hpolicy name d hlast hwrites
    have hnone : (builtBy others serdeError ops).tools.get name = none := by
      have hforbidden : d.isAllowedBy (finalPolicy ops) = false := by
        rw [hpolicy, ToolDescriptor.isAllowedBy, hwrites]
      rw [get_build, hlast, Option.filter_some, hforbidden]
      rfl
    constructor
    · rw [mem_listedNames hkeyed, hnone]
      rintro ⟨d', hd'⟩
      cases hd'
    · intro req hcalls
      rcases calls_cases hcalls with ⟨-, hrefused⟩ | ⟨d', hget, -⟩
      · exact hrefused
      · rw [hnone] at hget
        cases hget

end SapAutomate.Mcp
