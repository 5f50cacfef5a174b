/-
The requests for business partners (`sap-automate-rfc/src/odata.rs`): one
entity by its key, which is part of the path, and a search with a filter,
which is a parameter of the query.

Texts are their UTF-8 bytes; a quote is one byte, which is part of no other
character. A URL is what stands behind its authority.
-/
import SapAutomate.Lib.Form

namespace SapAutomate.Rfc

open Url (Bytes)

/-- The bytes of a text. -/
def bytesOf (s : String) : Bytes := s.toList.flatMap String.utf8EncodeChar

/-- `base_url` of a `BusinessHubConfig`, behind its authority: plain
segments, and slashes behind them. -/
structure ServiceBase where
  baseUrl : Bytes
  segments : List Bytes
  plain : ∀ s ∈ segments, Url.Plain s
  trimmed : baseUrl.rdropWhile (· == 47) = Url.written segments

variable (config : ServiceBase)

/-- `entity_set_url`. -/
def entitySetUrl : Bytes :=
  config.baseUrl.rdropWhile (· == 47) ++ bytesOf "/A_BusinessPartner"

/-- `replace('\'', "''")`. -/
def doubleQuotes (s : Bytes) : Bytes :=
  s.flatMap fun b => if b = 39 then [39, 39] else [b]

/-- The URL of `get_business_partner`. -/
def businessPartnerUrl (id : Bytes) : Bytes :=
  entitySetUrl config ++ bytesOf "('" ++ doubleQuotes id ++ bytesOf "')"

/-- `BP_SELECT`. -/
def bpSelect : String :=
  "BusinessPartner,BusinessPartnerFullName,BusinessPartnerCategory,"
    ++ "OrganizationBPName1,FirstName,LastName,BusinessPartnerGrouping,"
    ++ "CreationDate"

/-- `filter`. -/
def nameFilter (query : Bytes) : Bytes :=
  bytesOf "contains(BusinessPartnerFullName,'" ++ doubleQuotes query
    ++ bytesOf "')"

/-- The parameters of `search_business_partners`. -/
def searchParams (query : Bytes) (top : Nat) : List (Bytes × Bytes) :=
  [(bytesOf "$top", bytesOf (toString top)),
    (bytesOf "$filter", nameFilter query),
    (bytesOf "$select", bytesOf bpSelect)]

/-- The URL of `search_business_partners`. -/
def searchUrl (query : Bytes) (top : Nat) : Bytes :=
  entitySetUrl config ++ 63 :: Url.serialize (searchParams query top)

-- ============================================================== addresses

/-- What a string literal of OData says, after a quote or not: a quote
inside is doubled. -/
def unquoteFrom : Bool → Bytes → Option Bytes
  | false, [] => some []
  | true, [] => none
  | false, b :: bs =>
      if b = 39 then unquoteFrom true bs
      else (unquoteFrom false bs).map (b :: ·)
  | true, b :: bs =>
      if b = 39 then (unquoteFrom false bs).map (b :: ·) else none

/-- What a string literal of OData says. -/
def unquote (lit : Bytes) : Option Bytes := unquoteFrom false lit

/-- The text is a literal between these, which says `value`. -/
def LiteralIn (before after text value : Bytes) : Prop :=
  ∃ lit, text = before ++ lit ++ after ∧ unquote lit = some value

/-- The URL is that of the entity with this key, and of nothing else. -/
def AddressesEntity (id url : Bytes) : Prop :=
  ∃ v, Url.read url = some ⟨config.segments ++ [v], none⟩
    ∧ LiteralIn (bytesOf "A_BusinessPartner('") (bytesOf "')") v id

/-- The URL is that of the entity set, with a filter for this text. -/
def AddressesFilter (query : Bytes) (top : Nat) (url : Bytes) : Prop :=
  ∃ q f, Url.read url
      = some ⟨config.segments ++ [bytesOf "A_BusinessPartner"], some q⟩
    ∧ Url.params q = [(bytesOf "$top", bytesOf (toString top)),
        (bytesOf "$filter", f), (bytesOf "$select", bytesOf bpSelect)]
    ∧ LiteralIn (bytesOf "contains(BusinessPartnerFullName,'") (bytesOf "')")
        f query

end SapAutomate.Rfc
