/-
Documents and their chunks (`sap-automate-kb/src/schema.rs`). The entries
of an embedding are values of a type `F` that nothing here computes with,
and the digest of a text is a function that is given.
-/
import Mathlib.Logic.Function.Basic

namespace SapAutomate.Kb

/-- `Domain`. -/
inductive Domain where
  | sapHelp
  | abap
  | bpmn
  | leanix
  deriving DecidableEq

/-- `Domain::collection`. -/
def Domain.collection : Domain → String
  | .sapHelp => "sap_help"
  | .abap => "abap"
  | .bpmn => "bpmn"
  | .leanix => "leanix"

abbrev DocumentId := String

abbrev ChunkId := String

/-- `Document`. -/
structure Document where
  id : DocumentId
  domain : Domain
  uri : String
  title : String
  body : String
  breadcrumbs : List String
  contentHash : String
  etag : Option String
  lastCrawled : Option String
  metadata : List (String × String)
  deriving DecidableEq

/-- `Document::new`. -/
def Document.new (contentHash : String → String) (id : String)
    (domain : Domain) (uri title body : String) : Document where
  id := id
  domain := domain
  uri := uri
  title := title
  body := body
  breadcrumbs := []
  contentHash := contentHash body
  etag := none
  lastCrawled := none
  metadata := []

/-- `Chunk`. -/
structure Chunk (F : Type) where
  id : ChunkId
  documentId : DocumentId
  domain : Domain
  ordinal : Nat
  text : String
  embedding : Option (List F)
  breadcrumbs : List String
  title : String
  uri : String
  deriving DecidableEq

end SapAutomate.Kb
