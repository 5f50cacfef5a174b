/-
The offline client (`MockSapClient` of `sap-automate-rfc/src/client.rs`):
the seeded function catalogue, and `call_rfc` over it.

The mock executes nothing. It checks the arguments against the
catalogue entry and answers with an echo of them next to one synthetic
text per export parameter; the echo is part of the reply, under
`inputs`.
-/
import SapAutomate.Rfc.Client

namespace SapAutomate.Rfc

open Interact Json

-- ========================================================== catalogue

/-- `p_imp`, without the description. -/
def pImp (name ty : String) (opt : Bool) : RfcParameter :=
  ⟨name, .import, ty, opt⟩

/-- `p_exp`. -/
def pExp (name ty : String) (opt : Bool) : RfcParameter :=
  ⟨name, .export, ty, opt⟩

/-- `p_tab`. -/
def pTab (name ty : String) (opt : Bool) : RfcParameter :=
  ⟨name, .tables, ty, opt⟩

/-- `p_imp_default`: an import parameter with a default is optional. -/
def pImpDefault (name ty : String) : RfcParameter :=
  ⟨name, .import, ty, true⟩

/-- `seed_functions`. -/
def seedFunctions : List RfcFunctionMeta := [
  { function := "RFC_SYSTEM_INFO"
    parameters :=
      [pExp "RFCSI_EXPORT" "STRUCT(RFCSI)" false]
    readOnly := true
    commitRequired := false },
  { function := "BAPI_MATERIAL_GET_DETAIL"
    parameters :=
      [pImp "MATERIAL" "MATNR" false,
        pImp "PLANT" "WERKS_D" true,
        pImp "VALUATIONAREA" "BWKEY" true,
        pImp "MATERIALEVG" "STRUCT(BAPIMATEVG)" true,
        pExp "MATERIAL_GENERAL_DATA" "STRUCT(BAPIMATDOA)" false,
        pExp "RETURN" "STRUCT(BAPIRET2)" false,
        pExp "MATERIALPLANTDATA" "STRUCT(BAPIE1MARCRT)" true,
        pExp "MATERIALVALUATIONDATA" "STRUCT(BAPIE1MBEWRT)" true]
    readOnly := true
    commitRequired := false },
  { function := "BAPI_ACC_DOCUMENT_POST"
    parameters :=
      [pImp "DOCUMENTHEADER" "STRUCT(BAPIACHE09)" false,
        pImp "CUSTOMERCPD" "STRUCT(BAPIACPCA09)" true,
        pImp "CONTRACTHEADER" "STRUCT(BAPIACCAHD)" true,
        pExp "OBJ_TYPE" "AWTYP" false,
        pExp "OBJ_KEY" "AWKEY" false,
        pExp "OBJ_SYS" "AWSYS" false,
        pTab "ACCOUNTGL" "STRUCT(BAPIACGL09)" true,
        pTab "ACCOUNTRECEIVABLE" "STRUCT(BAPIACAR09)" true,
        pTab "ACCOUNTPAYABLE" "STRUCT(BAPIACAP09)" true,
        pTab "ACCOUNTTAX" "STRUCT(BAPIACTX09)" true,
        pTab "CURRENCYAMOUNT" "STRUCT(BAPIACCR09)" false,
        pTab "CRITERIA" "STRUCT(BAPIACKEC9)" true,
        pTab "VALUEFIELD" "STRUCT(BAPIACKEV9)" true,
        pTab "EXTENSION1" "STRUCT(BAPIPAREX)" true,
        pTab "RETURN" "STRUCT(BAPIRET2)" false,
        pTab "PAYMENTCARD" "STRUCT(BAPIACPC09)" true,
        pTab "REALESTATE" "STRUCT(BAPIACRE09)" true,
        pTab "ACCOUNTWT" "STRUCT(BAPIACWT09)" true,
        pTab "EXTENSION2" "STRUCT(BAPIPAREXC)" true]
    readOnly := false
    commitRequired := true },
  { function := "BAPI_TRANSACTION_COMMIT"
    parameters :=
      [pImpDefault "WAIT" "CHAR(1)",
        pExp "RETURN" "STRUCT(BAPIRET2)" false]
    readOnly := false
    commitRequired := false },
  { function := "BAPI_TRANSACTION_ROLLBACK"
    parameters :=
      [pExp "RETURN" "STRUCT(BAPIRET2)" false]
    readOnly := false
    commitRequired := false },
  { function := "BAPI_PO_CREATE1"
    parameters :=
      [pImp "POHEADER" "STRUCT(BAPIMEPOHEADER)" false,
        pImp "POHEADERX" "STRUCT(BAPIMEPOHEADERX)" false,
        pImpDefault "TESTRUN" "CHAR(1)",
        pExp "EXPHEADER" "STRUCT(BAPIMEPOHEADER)" false,
        pExp "EXPPOEXPIMPHEADER" "STRUCT(BAPIMEPOEXPIMPHEADER)" true,
        pExp "EXPPURCHASEORDER" "EBELN" false,
        pTab "POITEM" "STRUCT(BAPIMEPOITEM)" false,
        pTab "POITEMX" "STRUCT(BAPIMEPOITEMX)" false,
        pTab "POSCHEDULE" "STRUCT(BAPIMEPOSCHEDULE)" true,
        pTab "POSCHEDULEX" "STRUCT(BAPIMEPOSCHEDULX)" true,
        pTab "POACCOUNT" "STRUCT(BAPIMEPOACCOUNT)" true,
        pTab "POACCOUNTX" "STRUCT(BAPIMEPOACCOUNTX)" true,
        pTab "POSERVICES" "STRUCT(BAPIESLLC)" true,
        pTab "RETURN" "STRUCT(BAPIRET2)" false]
    readOnly := false
    commitRequired := true },
  { function := "BAPI_SALESORDER_CREATEFROMDAT2"
    parameters :=
      [pImp "ORDER_HEADER_IN" "STRUCT(BAPISDHD1)" false,
        pImp "ORDER_HEADER_INX" "STRUCT(BAPISDHD1X)" true,
        pImpDefault "TESTRUN" "CHAR(1)",
        pImpDefault "CONVERT" "CHAR(1)",
        pExp "SALESDOCUMENT" "VBELN" false,
        pTab "ORDER_ITEMS_IN" "STRUCT(BAPISDITM)" false,
        pTab "ORDER_ITEMS_INX" "STRUCT(BAPISDITMX)" true,
        pTab "ORDER_PARTNERS" "STRUCT(BAPIPARNR)" true,
        pTab "ORDER_SCHEDULES_IN" "STRUCT(BAPISCHDL)" true,
        pTab "ORDER_CONDITIONS_IN" "STRUCT(BAPICOND)" true,
        pTab "ORDER_TEXT" "STRUCT(BAPISDTEXT)" true,
        pTab "EXTENSIONIN" "STRUCT(BAPIPAREX)" true,
        pTab "RETURN" "STRUCT(BAPIRET2)" false]
    readOnly := false
    commitRequired := true },
  { function := "BAPI_CUSTOMER_CHANGEFROMDATA1"
    parameters :=
      [pImp "CUSTOMERNO" "KUNNR" false,
        pImp "PI_CUSTOMERHEADER" "STRUCT(BAPIKNA101_HEAD)" true,
        pImp "PI_CUSTOMERCOMPANY" "STRUCT(BAPIKNB101)" true,
        pImp "PI_CUSTOMERSALES" "STRUCT(BAPIKNVV01)" true,
        pImp "PI_COPYREFERENCE" "STRUCT(BAPIKNA110)" true,
        pTab "PIT_BANKDETAILS" "STRUCT(BAPIKNBK01)" true,
        pTab "RETURN" "STRUCT(BAPIRET2)" false]
    readOnly := false
    commitRequired := true },
  { function := "TMS_MGR_FORWARD_TR_REQUEST"
    parameters :=
      [pImp "IV_TARGET_SYSTEM" "TMSSYSNAM" false,
        pImp "IV_REQUEST" "TRKORR" false,
        pImpDefault "IV_LANGU" "LANGU",
        pImpDefault "IV_TEST_IMPORT" "CHAR(1)",
        pExp "EV_RC" "INT4" false,
        pTab "ET_MSG" "STRUCT(STMSMESS)" true]
    readOnly := false
    commitRequired := false },
  { function := "RFC_READ_TABLE"
    parameters :=
      [pImp "QUERY_TABLE" "DDOBJNAME" false,
        pImpDefault "DELIMITER" "CHAR(1)",
        pImpDefault "NO_DATA" "CHAR(1)",
        pImpDefault "ROWSKIPS" "INT4",
        pImpDefault "ROWCOUNT" "INT4",
        pTab "OPTIONS" "STRUCT(RFC_DB_OPT)" true,
        pTab "FIELDS" "STRUCT(RFC_DB_FLD)" true,
        pTab "DATA" "STRUCT(TAB512)" false]
    readOnly := true
    commitRequired := false },
  { function := "DDIF_FIELDINFO_GET"
    parameters :=
      [pImp "TABNAME" "DDOBJNAME" false,
        pImp "FIELDNAME" "DFIES-FIELDNAME" true,
        pImpDefault "LANGU" "LANGU",
        pImp "LFIELDNAME" "DFIES-LFIELDNAME" true,
        pImpDefault "ALL_TYPES" "CHAR(1)",
        pImpDefault "GROUP_NAMES" "CHAR(1)",
        pExp "X030L_WA" "STRUCT(X030L)" false,
        pExp "DDOBJTYPE" "DDOBJTYP" false,
        pExp "DFIES_WA" "STRUCT(DFIES)" true,
        pExp "LINES_DESCR" "STRUCT(DDFIELDDESCR)" true,
        pTab "DFIES_TAB" "STRUCT(DFIES)" false,
        pTab "FIXED_VALUES" "STRUCT(DDFIXVALUES)" true]
    readOnly := true
    commitRequired := false } ]

/-- `self.functions.get`: the seeded names are distinct, so the map's
entry for a name is the list's. -/
def findFunction (name : String) : Option RfcFunctionMeta :=
  seedFunctions.find? fun f => f.function == name

/-- `MockSapClient::rfc_metadata`: the catalogue has one language. -/
def mockRfcMetadata (function _language : String) :
    RfcResult RfcFunctionMeta :=
  match findFunction function with
  | some fnMeta => .ok fnMeta
  | none => .error (.notFound function)

/-- The loop of `bulk_rfc_metadata`. -/
def mockBulkLoop : List String → List RfcFunctionMeta → List String →
    List RfcFunctionMeta × List String
  | [], out, missing => (out, missing)
  | f :: fs, out, missing =>
      match findFunction f with
      | some fnMeta => mockBulkLoop fs (out ++ [fnMeta]) missing
      | none => mockBulkLoop fs out (missing ++ [f])

/-- `MockSapClient::bulk_rfc_metadata`. -/
def mockBulkRfcMetadata (functions : List String) (language : String) :
    RfcResult (BulkMetadata RfcFunctionMeta) :=
  let r := mockBulkLoop functions [] []
  .ok ⟨language, r.1, r.2⟩

/-- The mock's metadata lookups. -/
def mockMetadataClient : MetadataClient RfcFunctionMeta where
  rfcMetadata := mockRfcMetadata
  bulkRfcMetadata := mockBulkRfcMetadata

-- =============================================================== calls

/-- `mock_outputs`: a text naming its type for each export parameter. -/
def mockOutputs (fnMeta : RfcFunctionMeta) : Map :=
  fnMeta.parameters.foldl (fun out p =>
    if p.direction = .export then
      out.insert p.name (.string ("<mock " ++ p.typeToken ++ ">"))
    else out) []

/-- The argument map of a call: an object, or nothing for `null`. -/
def callArgs : Value → RfcResult Map
  | .object m => .ok m
  | .null => .ok []
  | other => .error (.invalidParameter "parameters"
      ("expected object, got " ++ other.toJson))

/-- The first required import parameter the arguments lack. -/
def missingImport (parameters : List RfcParameter) (args : Map) :
    Option RfcParameter :=
  parameters.find? fun p =>
    p.direction == .import && !p.optional && !args.containsKey p.name

/-- The reply of an executed mock call. -/
def mockReply (function : String) (fnMeta : RfcFunctionMeta) (args : Map) :
    Value :=
  .object (Map.ofEntries [("function", .string function),
    ("executed_on", .string "mock.sap.example"), ("inputs", .object args),
    ("outputs", .object (mockOutputs fnMeta))])

/-- `MockSapClient::call_rfc`. A pool permit is always granted. -/
def mockCallRfc (request : RfcCallRequest) (readOnlyMode : Bool) :
    RfcResult Value :=
  match findFunction request.function with
  | none => .error (.notFound request.function)
  | some fnMeta =>
      if readOnlyMode && !fnMeta.readOnly then
        .error (.permissionDenied ("function '" ++ request.function
          ++ "' modifies state; not callable in read-only mode"))
      else
        match callArgs request.parameters with
        | .error e => .error e
        | .ok args =>
            match missingImport fnMeta.parameters args with
            | some p => .error (.invalidParameter p.name
                "required import parameter missing")
            | none => .ok (mockReply request.function fnMeta args)

/-- The mock as a client. -/
def mockSapClient : SapClient Unit where
  answer call _ := (mockCallRfc call.request call.readOnlyMode, ())

-- ====================================================== small lemmas

/-- What is found is catalogued, under the name asked for. -/
theorem findFunction_some {name : String} {f : RfcFunctionMeta}
    (h : findFunction name = some f) : f ∈ seedFunctions ∧ f.function = name := by
  unfold findFunction at h
  have hname := List.find?_some h
  exact ⟨List.mem_of_find?_eq_some h, eq_of_beq hname⟩

/-- Every catalogued write BAPI leaves the commit to its caller, and
has a table its messages are read from. -/
theorem write_bapi_contract : ∀ f ∈ seedFunctions, f.commitRequired = true →
    f.readOnly = false ∧ ∃ p ∈ f.parameters, p.name = "RETURN" := by
  decide

end SapAutomate.Rfc
