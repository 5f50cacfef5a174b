/-
The tools registered with `with_writes()`
(`sap-automate-server/src/tools.rs`): `abap.adt.activate`, and the
workflows that confirm a step with the user before it counts as done.

`withWriteTools` puts their handlers among the tools of the server.
-/
import SapAutomate.Adt.Client
import SapAutomate.Mcp.Elicit
import SapAutomate.Server.Tools

namespace SapAutomate.Server

open Interact Json Mcp Adt

/-- What the write tools ask besides the audit log: the user, the ADT
client, and the rest. -/
abbrev WriteIface (P : Iface) : Iface := ElicitIface.sum (AdtIface.sum P)

/-- What the write tools take from `serde`: how it prints the `f64` that
a JSON number stands for, and the texts of its errors. -/
structure SerdeTexts where
  f64Text : Number → Option Number
  activateError : Value → String
  purchaseOrderError : Value → String
  customerMasterError : Value → String
  transportError : Value → String

variable {P : Iface}

/-- `mcp_server::elicit`. -/
def elicit (message : String) (requestedSchema : Value) :
    Prog (AuditIface.sum (WriteIface P)) ElicitationResult :=
  (Prog.query (I := ElicitIface) (.elicit message requestedSchema)).inl.inr

/-- `object_schema`. -/
def objectSchema (properties : Value) (required : List String) : Value :=
  property [("type", .string "object"), ("properties", properties),
    ("required", .array (required.map .string))]

/-- `Option<String>` from JSON: absent or `null`, or a string. -/
def optionalString (v : Option Value) : Option (Option String) :=
  match Value.optionField v with
  | none => some none
  | some s => s.asStr.map some

-- ============================================================ activation

/-- `ActivateArgs`. -/
def activateArgs (v : Value) : Option ActivationRequest := do
  let fields ← v.structFields ["name", "kind"]
  let name ← (fields "name").bind Value.asStr
  let kind ← (fields "kind").bind AbapObjectKind.ofJson
  return ⟨name, kind⟩

/-- The name of `adt_activate`. -/
def activateName : String := "abap.adt.activate"

/-- The handler of `adt_activate`. -/
def activateHandler (ctx : ServerContext) (texts : SerdeTexts) :
    ToolHandler (AuditIface.sum (WriteIface P)) := fun arguments =>
  match activateArgs arguments with
  | none => .done (.ok (.error ("abap.adt.activate: "
      ++ texts.activateError arguments)))
  | some request => do
      match ← (Prog.query (I := AdtIface) ⟨request, ctx.readOnly⟩).inl.inr.inr
        with
      | .ok outcome => return .ok (renderJson outcome.toJson)
      | .error e => return .ok (.error ("abap.adt.activate [" ++ e.codeDebug
          ++ "]: " ++ e.display))

-- ======================================================== purchase order

/-- `PoArgs`. -/
structure PoArgs where
  vendor : Option String
  material : Option String
  quantity : Option Number

def PoArgs.ofJson (texts : SerdeTexts) (v : Value) : Option PoArgs := do
  let fields ← v.structFields ["vendor", "material", "quantity"]
  let vendor ← optionalString (fields "vendor")
  let material ← optionalString (fields "material")
  let quantity ← match Value.optionField (fields "quantity") with
    | none => some none
    | some (.number n) => (texts.f64Text n).map some
    | some _ => none
  return ⟨vendor, material, quantity⟩

/-- The name of `workflow_create_purchase_order`. -/
def purchaseOrderName : String := "sap.workflow.create_purchase_order"

/-- The text of `0.0`. -/
def zeroQuantity : Number := ⟨"0.0", by decide, by decide⟩

/-- The form of a purchase order. -/
def purchaseOrderSchema (args : PoArgs) : Value :=
  objectSchema (property [
    ("vendor", property [("type", .string "string"),
      ("description", .string "Vendor (LIFNR), e.g. 'V-100100'"),
      ("default", .string (args.vendor.getD ""))]),
    ("material", property [("type", .string "string"),
      ("description", .string "Material (MATNR)"),
      ("default", .string (args.material.getD ""))]),
    ("quantity", property [("type", .string "number"),
      ("description", .string "Order quantity"),
      ("default", .number (args.quantity.getD zeroQuantity))]),
    ("cost_centre", property [("type", .string "string"),
      ("description", .string "Cost centre (KOSTL), e.g. '1000'")]),
    ("company_code", property [("type", .string "string"),
      ("description", .string "Company code (BUKRS)"),
      ("enum", .array [.string "1000", .string "2000", .string "3000"]),
      ("default", .string "1000")]),
    ("currency", property [("type", .string "string"),
      ("description", .string "Document currency"),
      ("enum", .array [.string "USD", .string "EUR", .string "GBP",
        .string "JPY", .string "SGD"]),
      ("default", .string "USD")]),
    ("delivery_date", property [("type", .string "string"),
      ("description", .string "Requested delivery date (YYYY-MM-DD)")])])
    ["vendor", "material", "quantity", "cost_centre", "company_code",
      "delivery_date"]

/-- The handler of `workflow_create_purchase_order`. -/
def purchaseOrderHandler (ctx : ServerContext) (texts : SerdeTexts) :
    ToolHandler (AuditIface.sum (WriteIface P)) := fun arguments =>
  match PoArgs.ofJson texts arguments with
  | none => .done (.ok (.error ("sap.workflow.create_purchase_order: "
      ++ texts.purchaseOrderError arguments)))
  | some args => do
      let answer ← elicit "Confirm purchase-order details before posting. Cost centre + delivery date are mandatory."
        (purchaseOrderSchema args)
      match answer.action with
      | .accept =>
          recordWriteAudit ctx purchaseOrderName arguments
            (.ok "purchase order confirmed (mock)")
          return .ok (.text ("Purchase order confirmed (mock execution; no real BAPI fired):\n\n"
            ++ (answer.content.getD (.object [])).toJsonPretty 0
            ++ "\n\nNext step (when enable-writes): sap.rfc.call BAPI_PO_CREATE1."))
      | .decline =>
          recordWriteAudit ctx purchaseOrderName arguments
            (.declined "user declined elicitation")
          return .ok (.text "Purchase order cancelled by user (declined elicitation).")
      | .cancel =>
          recordWriteAudit ctx purchaseOrderName arguments
            (.denied "user aborted or elicitation unavailable")
          return .ok (.error "Purchase order cancelled (user aborted or elicitation unavailable). No action taken.")

-- ======================================================= customer master

/-- `CmArgs`: the customer. -/
def cmArgs (v : Value) : Option (Option String) := do
  let fields ← v.structFields ["customer"]
  optionalString (fields "customer")

/-- The name of `workflow_maintain_customer_master`. -/
def customerMasterName : String := "sap.workflow.maintain_customer_master"

/-- The form that picks a customer and a view. -/
def pickSchema (customer : Option String) : Value :=
  objectSchema (property [
    ("customer", property [("type", .string "string"),
      ("description", .string "Customer (KUNNR)"),
      ("default", .string (customer.getD ""))]),
    ("scope", property [("type", .string "string"),
      ("description", .string "Which view to maintain"),
      ("enum", .array [.string "general_data", .string "company_code_data",
        .string "sales_area_data"]),
      ("default", .string "general_data")]),
    ("company_code", property [("type", .string "string"),
      ("description", .string "Company code (only required for company_code_data scope)")])])
    ["customer", "scope"]

/-- The fields of a view. -/
def fieldsSchema (scope : String) : Value :=
  if scope = "general_data" then property [
    ("name1", property [("type", .string "string"),
      ("description", .string "Name 1")]),
    ("city", property [("type", .string "string"),
      ("description", .string "City")]),
    ("country", property [("type", .string "string"),
      ("description", .string "Country (ISO-2)"),
      ("enum", .array [.string "DE", .string "US", .string "GB", .string "JP",
        .string "SG"])])]
  else if scope = "company_code_data" then property [
    ("recon_account", property [("type", .string "string"),
      ("description", .string "Reconciliation account (HKONT), e.g. 140000")]),
    ("payment_terms", property [("type", .string "string"),
      ("description", .string "Payment terms (ZTERM)")]),
    ("dunning_area", property [("type", .string "string"),
      ("description", .string "Dunning area")])]
  else if scope = "sales_area_data" then property [
    ("sales_org", property [("type", .string "string"),
      ("description", .string "Sales organisation")]),
    ("distribution_channel", property [("type", .string "string"),
      ("description", .string "Distribution channel")]),
    ("division", property [("type", .string "string"),
      ("description", .string "Division")]),
    ("incoterms", property [("type", .string "string"),
      ("enum", .array [.string "EXW", .string "FCA", .string "CIF",
        .string "DAP", .string "DDP"])])]
  else property []

/-- The handler of `workflow_maintain_customer_master`. -/
def customerMasterHandler (ctx : ServerContext) (texts : SerdeTexts) :
    ToolHandler (AuditIface.sum (WriteIface P)) := fun arguments =>
  match cmArgs arguments with
  | none => .done (.ok (.error ("sap.workflow.maintain_customer_master: "
      ++ texts.customerMasterError arguments)))
  | some hint => do
      let pick ← elicit "Select customer and which data view to maintain."
        (pickSchema hint)
      if pick.action ≠ .accept then
        recordWriteAudit ctx customerMasterName arguments
          (.declined "cancelled at scope selection")
        return .ok (.error "Customer master maintenance cancelled at scope selection.")
      else
        let picked := pick.content.getD .null
        let customer := ((picked.get "customer").bind Value.asStr).getD ""
        let scope := ((picked.get "scope").bind Value.asStr).getD "general_data"
        let confirm ← elicit ("Enter new values for customer " ++ customer
            ++ " (" ++ scope ++ " view). Leave fields blank to keep current values.")
          (objectSchema (fieldsSchema scope) [])
        match confirm.action with
        | .accept =>
            recordWriteAudit ctx customerMasterName arguments
              (.ok ("customer " ++ customer ++ " change confirmed (mock)"))
            return .ok (.text ("Customer master change confirmed (mock):\n  customer: "
              ++ customer ++ "\n  scope:    " ++ scope ++ "\n  changes:\n"
              ++ (confirm.content.getD (.object [])).toJsonPretty 0
              ++ "\n\nNext step (when enable-writes): sap.rfc.call BAPI_CUSTOMER_CHANGEFROMDATA."))
        | .decline =>
            recordWriteAudit ctx customerMasterName arguments
              (.declined "user declined field entry")
            return .ok (.text "Customer master change declined; no action taken.")
        | .cancel =>
            recordWriteAudit ctx customerMasterName arguments
              (.denied "cancelled")
            return .ok (.error "Customer master cancelled.")

-- ============================================================= transport

/-- `TrArgs`: the transport. Its field has no default of its own, so it
is missed in an array, though not in an object. -/
def trArgs : Value → Option (Option String)
  | .object m => optionalString (Map.get m "transport")
  | .array [v] => optionalString (some v)
  | _ => none

/-- The name of `workflow_release_transport`. -/
def releaseTransportName : String := "sap.workflow.release_transport"

/-- The form of a transport release. -/
def transportSchema (transport : Option String) : Value :=
  objectSchema (property [
    ("transport", property [("type", .string "string"),
      ("description", .string "Transport request ID (TRKORR), e.g. ZTRA01K900123"),
      ("default", .string (transport.getD ""))]),
    ("target_system", property [("type", .string "string"),
      ("description", .string "Target system"),
      ("enum", .array [.string "DEV", .string "QA", .string "PRODUCTION"]),
      ("default", .string "QA")]),
    ("release_dependents", property [("type", .string "boolean"),
      ("description", .string "Release dependent transports?"),
      ("default", .bool false)]),
    ("skip_atc", property [("type", .string "boolean"),
      ("description", .string "Skip ATC checks (dangerous)"),
      ("default", .bool false)]),
    ("confirmation_phrase", property [("type", .string "string"),
      ("description", .string "Type the transport ID again to confirm")])])
    ["transport", "target_system", "confirmation_phrase"]

/-- The handler of `workflow_release_transport`. -/
def releaseTransportHandler (ctx : ServerContext) (texts : SerdeTexts) :
    ToolHandler (AuditIface.sum (WriteIface P)) := fun arguments =>
  match trArgs arguments with
  | none => .done (.ok (.error ("sap.workflow.release_transport: "
      ++ texts.transportError arguments)))
  | some initial => do
      let answer ← elicit "Transport release is irreversible in production. Confirm details and re-enter the transport ID to proceed."
        (transportSchema initial)
      match answer.action with
      | .accept =>
          let v := answer.content.getD .null
          let tr := ((v.get "transport").bind Value.asStr).getD ""
          let phrase := ((v.get "confirmation_phrase").bind Value.asStr).getD ""
          let target := ((v.get "target_system").bind Value.asStr).getD "QA"
          if tr ≠ phrase then
            recordWriteAudit ctx releaseTransportName arguments
              (.denied "confirmation phrase mismatch")
            return .ok (.error ("Confirmation phrase '" ++ phrase
              ++ "' does not match transport '" ++ tr ++ "'. Release aborted."))
          else
            recordWriteAudit ctx releaseTransportName arguments
              (.ok ("transport " ++ tr ++ " release confirmed → " ++ target
                ++ " (mock)"))
            let flag := fun name => (Value.bool
              (((v.get name).bind Value.asBool).getD false)).toJson
            return .ok (.text ("Transport release plan confirmed (mock):\n  transport:           "
              ++ tr ++ "\n  target_system:       " ++ target
              ++ "\n  release_dependents:  " ++ flag "release_dependents"
              ++ "\n  skip_atc:            " ++ flag "skip_atc"
              ++ "\n\nNext step (when enable-writes): TMS_MGR_FORWARD_TR_REQUEST."))
      | .decline =>
          recordWriteAudit ctx releaseTransportName arguments
            (.declined "user declined release")
          return .ok (.text "Transport release declined; no action taken.")
      | .cancel =>
          recordWriteAudit ctx releaseTransportName arguments
            (.denied "elicitation unavailable")
          return .ok (.error "Transport release cancelled (client lacks elicitation capability — refusing to proceed without confirmation).")

-- ============================================================ the server

/-- The handler of a write tool, by name. -/
def writeHandler (ctx : ServerContext) (texts : SerdeTexts) (name : String) :
    Option (ToolHandler (AuditIface.sum (WriteIface P))) :=
  if name = activateName then some (activateHandler ctx texts)
  else if name = purchaseOrderName then some (purchaseOrderHandler ctx texts)
  else if name = customerMasterName then some (customerMasterHandler ctx texts)
  else if name = releaseTransportName then
    some (releaseTransportHandler ctx texts)
  else none

/-- Surroundings with the handlers of the write tools. -/
def Surroundings.withWriteTools (env : Surroundings (WriteIface P))
    (ctx : ServerContext) (texts : SerdeTexts) : Surroundings (WriteIface P) :=
  { env with
    body := fun name =>
      match writeHandler ctx texts name with
      | some handler => { env.body name with handler := handler }
      | none => env.body name }

end SapAutomate.Server
