import ApiGraph.Main
import ApiGraph.Proofs.Build.ForeignKeys
import ApiGraph.Proofs.Merge.Locality
import ApiGraph.Proofs.Merge.Meaning
import ApiGraph.Proofs.Build.Order
import ApiGraph.Proofs.Build.Reordered
import ApiGraph.Proofs.Compile.Split
import ApiGraph.Proofs.Build.Acceptance
import ApiGraph.Proofs.Build.JoinTables
import ApiGraph.Proofs.Merge.Directory
import ApiGraph.Proofs.Build.Inverse
import ApiGraph.Proofs.Merge.Idempotence
import ApiGraph.Proofs.Json.Whole
import ApiGraph.Proofs.Json.Spells
import ApiGraph.Proofs.Json.ReadBack
import ApiGraph.Proofs.Json.Written
import ApiGraph.Proofs.Graph.Parts
import ApiGraph.Proofs.FileTree.Written
import ApiGraph.Proofs.Graph.HandOff
import ApiGraph.Proofs.Graph.Readable
import ApiGraph.Proofs.Build.Consistency
import ApiGraph.Proofs.Build.Insertions
import ApiGraph.Proofs.Build.Names
import ApiGraph.Proofs.Build.Apart
import ApiGraph.Proofs.Merge.Carried
import ApiGraph.Proofs.Build.Identity
import ApiGraph.Proofs.Compile.Components
import ApiGraph.Proofs.Merge.Cache
import ApiGraph.Proofs.Build.Fileless
import ApiGraph.Proofs.Build.Unrelated
import ApiGraph.Proofs.Resolver.Hops
import ApiGraph.Proofs.Merge.Tables
import ApiGraph.Proofs.Build.Flattened
import ApiGraph.Proofs.Build.Binding
import ApiGraph.Proofs.Build.Growth
import ApiGraph.Proofs.Build.PathItems
import ApiGraph.Proofs.Build.Inlined
import ApiGraph.Proofs.Build.Microservices
import ApiGraph.Proofs.Graph.Partition
import ApiGraph.Proofs.Merge.ModelOnly
import ApiGraph.Proofs.Reference.Escapes
import ApiGraph.Proofs.Reference.Printed
import ApiGraph.Proofs.Build.Lookups
import ApiGraph.Proofs.Build.Evidence
import ApiGraph.Proofs.OpenApi.Written
import ApiGraph.Proofs.Naming.Label
import ApiGraph.Proofs.Naming.Plural
