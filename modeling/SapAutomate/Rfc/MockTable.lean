/-
`read_table` of the offline client (`MockSapClient` of
`sap-automate-rfc/src/client.rs`): the rows of a seeded table, filtered by
the where clauses and the client, and projected.

The case mapping of the standard library is a parameter; the permit of the
connection pool is taken as granted.
-/
import Mathlib.Data.List.Infix
import SapAutomate.Rfc.Conditions
import SapAutomate.Json.Value
import SapAutomate.Soap.ReadTable

namespace SapAutomate.Rfc

open Json Soap

variable (toLowercase : List Char → List Char)

end SapAutomate.Rfc
