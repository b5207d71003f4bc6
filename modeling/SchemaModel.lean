import SchemaModel.Main
import SchemaModel.Proofs.Batches
import SchemaModel.Proofs.ByteScanning
import SchemaModel.Proofs.References
import SchemaModel.Proofs.Conservation
import SchemaModel.Proofs.Derivations
import SchemaModel.Proofs.Encodings
import SchemaModel.Proofs.Escapes
import SchemaModel.Proofs.Insertions
import SchemaModel.Proofs.Inventories
import SchemaModel.Proofs.Literals
import SchemaModel.Proofs.FaultPlaces
import SchemaModel.Proofs.Nesting
import SchemaModel.Proofs.NormalForms
import SchemaModel.Proofs.Overriding
import SchemaModel.Proofs.Reordering
import SchemaModel.Proofs.Reprinting
import SchemaModel.Proofs.Roots
import SchemaModel.Proofs.Wording
import SchemaModel.Proofs.BlockLayout
import SchemaModel.Proofs.StringLines
import SchemaModel.Proofs.Places
import SchemaModel.Proofs.DocumentPaths
import SchemaModel.Proofs.DocumentPlaces
import SchemaModel.Proofs.Envelopes
import SchemaModel.Proofs.Grounds
import SchemaModel.Proofs.ConventionalRoots
import SchemaModel.Proofs.LineSearch
import SchemaModel.Proofs.ScopeRuns
import SchemaModel.Proofs.OverrideTexts
