import SapAutomate.Proofs.Luw
import SapAutomate.Proofs.FailClosed
import SapAutomate.Proofs.Forgery
import SapAutomate.Proofs.ReadOnly
import SapAutomate.Proofs.WellFormed
import SapAutomate.Proofs.RoundTrip
import SapAutomate.Proofs.Truncation
import SapAutomate.Proofs.ReadTable
import SapAutomate.Proofs.MetadataCache
import SapAutomate.Proofs.Transparency
import SapAutomate.Proofs.CircuitBreaker
import SapAutomate.Proofs.Framing
import SapAutomate.Proofs.StrandedCall
import SapAutomate.Proofs.Shutdown
import SapAutomate.Proofs.OneResponse
import SapAutomate.Proofs.Capability
import SapAutomate.Proofs.AuditSecrecy
import SapAutomate.Proofs.AuditTrail
import SapAutomate.Proofs.Upsert
import SapAutomate.Proofs.HashIndex
import SapAutomate.Proofs.Reingest
import SapAutomate.Proofs.Pairing
import SapAutomate.Proofs.QdrantUpsert
import SapAutomate.Kb.Qdrant
import SapAutomate.Proofs.PageIds
import SapAutomate.Lib.Iteration
import SapAutomate.Graph.Community
import SapAutomate.Proofs.HashOrder
import SapAutomate.Proofs.MoveGain
import SapAutomate.Proofs.Exposure
import SapAutomate.Proofs.TenantIsolation
import SapAutomate.Proofs.NextInstant
import SapAutomate.Proofs.FusionOrder
import SapAutomate.Proofs.HybridSearch
import SapAutomate.Proofs.MassConservation
import SapAutomate.Proofs.GraphPartition
import SapAutomate.Proofs.CsrfToken
import SapAutomate.Proofs.HeadingTree
import SapAutomate.Adt.Addressing
import SapAutomate.Lib.Xml.Attribute
import SapAutomate.Proofs.ObjectAddress
import SapAutomate.Proofs.RankFusion
import SapAutomate.Proofs.FitFilter
import SapAutomate.Proofs.RobotsGroups
import SapAutomate.Proofs.RetryPolicy
import SapAutomate.Proofs.TokenExpiry
import SapAutomate.Proofs.Redaction
import SapAutomate.Proofs.DanglingEdges
import SapAutomate.Proofs.ChunkWindows
import SapAutomate.Proofs.ChunkCoverage
import SapAutomate.Lib.Ranges
import SapAutomate.Proofs.SectionRanges
import SapAutomate.Proofs.TreePaths
import SapAutomate.Proofs.NavigateDepth
import SapAutomate.Proofs.RateSpacing
import SapAutomate.Proofs.SparseSearch
import SapAutomate.Lib.Bm25
import SapAutomate.Observability.Metrics
import SapAutomate.Proofs.HistogramBuckets
import SapAutomate.Proofs.SeriesKeys
import SapAutomate.Lib.Distance
import SapAutomate.Graph.MultiHop
import SapAutomate.Proofs.HopDistance
import SapAutomate.Rfc.Conditions
import SapAutomate.Proofs.ClauseOffsets
import SapAutomate.Lib.Form
import SapAutomate.Rfc.BusinessPartner
import SapAutomate.Proofs.EntityAddress
import SapAutomate.Lib.Like
import SapAutomate.Rfc.MockTable
import SapAutomate.Proofs.LikePatterns
import SapAutomate.Proofs.SqlRows
import SapAutomate.Proofs.WorkingRing
import SapAutomate.Proofs.TagRecall
import SapAutomate.Proofs.ReleaseGate
import SapAutomate.Lib.Base64
import SapAutomate.Proofs.Credentials
import SapAutomate.Proofs.ChildFolding
import SapAutomate.Lib.Template
import SapAutomate.Skills.Skill
import SapAutomate.Proofs.SkillRender
import SapAutomate.Skills.Frontmatter
import SapAutomate.Proofs.FrontmatterLayout
import SapAutomate.Lib.Xml.TagEvent
import SapAutomate.Lib.Xml.TagReading
import SapAutomate.Adt.DataPreview
import SapAutomate.Proofs.PreviewRows
import SapAutomate.Proofs.Correlation
import SapAutomate.Proofs.Provenance
import SapAutomate.Server.OnSession
import SapAutomate.Proofs.Consent
import SapAutomate.Scheduler.Fire
import SapAutomate.Proofs.FireCounts
import SapAutomate.Proofs.QdrantRecall
import SapAutomate.Proofs.ObjectMembers
import SapAutomate.Lib.DampedWalk
import SapAutomate.Proofs.PageRankLimit
import SapAutomate.Mcp.Http
import SapAutomate.Proofs.HttpGate
