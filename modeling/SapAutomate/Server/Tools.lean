/-
The tools the server registers, and the server built from them
(`sap-automate-server/src/{tools,main}.rs`).

`sap.rfc.call` is the only tool that calls functions through the SAP
client's `call_rfc`. The others are registered under their names and
exposures here, with their bodies a parameter: programs that talk to
the audit log and to whatever else `O` is.
-/
import SapAutomate.Server.RfcCall

namespace SapAutomate.Server

open Interact Json Mcp

/-- The rest of a tool. -/
structure ToolBody (O : Iface) where
  description : Option String
  inputSchema : Value
  handler : ToolHandler (AuditIface.sum O)

/-- What surrounds the tool `sap.rfc.call`: the bodies of the other
tools, the methods that do not concern tools, and the texts of
deserialisation errors. -/
structure Surroundings (O : Iface) where
  body : String → ToolBody O
  methods : Request → Prog (AuditIface.sum O) (McpResult Value)
  callParamsError : Value → String
  rfcRequestError : Value → String

section Tools

variable {O : Iface} (env : Surroundings O)

/-- A tool of the surroundings. -/
def plainTool (name : String) : ToolDescriptor (ToolIface O) :=
  .new name (env.body name).description (env.body name).inputSchema fun args =>
    ((env.body name).handler args).inr

/-- `rag_tools`. -/
def ragTools : List (ToolDescriptor (ToolIface O)) :=
  [plainTool env "abap.search",
    plainTool env "bpmn.find_process",
    plainTool env "eam.search_apps",
    plainTool env "sap.help.search",
    plainTool env "sap.kb.navigate"]

/-- `sap_tools`. -/
def sapTools (ctx : ServerContext) : List (ToolDescriptor (ToolIface O)) :=
  [plainTool env "sap.system.info",
    plainTool env "sap.system.health",
    plainTool env "sap.system.cache_stats",
    plainTool env "sap.system.cache_invalidate",
    plainTool env "sap.rfc.search",
    plainTool env "sap.rfc.metadata",
    plainTool env "sap.rfc.bulk_metadata",
    toolRfcCall ctx env.rfcRequestError,
    plainTool env "sap.table.read",
    plainTool env "sap.table.structure",
    plainTool env "sap.docs.search",
    plainTool env "sap.bapi.parse_return",
    plainTool env "sap.bp.search",
    plainTool env "sap.bp.get"]

/-- `adt_tools`. -/
def adtTools : List (ToolDescriptor (ToolIface O)) :=
  [plainTool env "abap.adt.get_program",
    plainTool env "abap.adt.get_class",
    plainTool env "abap.adt.get_interface",
    plainTool env "abap.adt.get_include",
    plainTool env "abap.adt.get_function_module",
    plainTool env "abap.adt.get_package_contents",
    plainTool env "abap.adt.get_cds_view",
    plainTool env "abap.adt.search",
    plainTool env "abap.adt.where_used",
    plainTool env "abap.adt.get_table_contents",
    (plainTool env "abap.adt.activate").withWrites]

/-- `graph_tools`. -/
def graphTools : List (ToolDescriptor (ToolIface O)) :=
  [plainTool env "kb.multi_hop",
    plainTool env "kb.global_query",
    plainTool env "kb.summarise",
    plainTool env "kb.graph_neighborhood"]

/-- `workflow_tools`. -/
def workflowTools : List (ToolDescriptor (ToolIface O)) :=
  [(plainTool env "sap.workflow.create_purchase_order").withWrites,
    (plainTool env "sap.workflow.maintain_customer_master").withWrites,
    (plainTool env "sap.workflow.release_transport").withWrites]

/-- The tools in the order they are registered. -/
def serverTools (ctx : ServerContext) : List (ToolDescriptor (ToolIface O)) :=
  ragTools env ++ (sapTools env ctx ++ (adtTools env ++ (graphTools env
    ++ workflowTools env)))

/-- Their names. -/
def toolNames : List String :=
  ["abap.search", "bpmn.find_process", "eam.search_apps", "sap.help.search",
    "sap.kb.navigate", "sap.system.info", "sap.system.health",
    "sap.system.cache_stats", "sap.system.cache_invalidate", "sap.rfc.search",
    "sap.rfc.metadata", "sap.rfc.bulk_metadata", "sap.rfc.call",
    "sap.table.read", "sap.table.structure", "sap.docs.search",
    "sap.bapi.parse_return", "sap.bp.search", "sap.bp.get",
    "abap.adt.get_program", "abap.adt.get_class", "abap.adt.get_interface",
    "abap.adt.get_include", "abap.adt.get_function_module",
    "abap.adt.get_package_contents", "abap.adt.get_cds_view",
    "abap.adt.search", "abap.adt.where_used", "abap.adt.get_table_contents",
    "abap.adt.activate", "kb.multi_hop", "kb.global_query", "kb.summarise",
    "kb.graph_neighborhood", "sap.workflow.create_purchase_order",
    "sap.workflow.maintain_customer_master", "sap.workflow.release_transport"]

/-- `build_server`. -/
def buildServer (ctx : ServerContext) (readOnly : Bool) :
    Server (ToolIface O) :=
  let policy := if readOnly then .readOnlyOnly else .all
  (((ServerBuilder.new (fun req => (env.methods req).inr)
    env.callParamsError).withExposure policy).register
      (serverTools env ctx)).build

end Tools

end SapAutomate.Server
