import SchemaCompiler.Database.Scripted
import SchemaCompiler.Main
import SchemaCompiler.Proofs.AppliedScripts
import SchemaCompiler.Proofs.BoundModels
import SchemaCompiler.Proofs.CacheHistories
import SchemaCompiler.Proofs.CatalogLiterals
import SchemaCompiler.Proofs.CycleGuards
import SchemaCompiler.Proofs.DecoratedDrivers
import SchemaCompiler.Proofs.DerivedAnnotations
import SchemaCompiler.Proofs.FailureRules
import SchemaCompiler.Proofs.GraphPanics
import SchemaCompiler.Proofs.Loader
import SchemaCompiler.Proofs.ModelFields
import SchemaCompiler.Proofs.ModelIdentifiers
import SchemaCompiler.Proofs.PlannedScripts
import SchemaCompiler.Proofs.PooledConnections
import SchemaCompiler.Proofs.QuotedIdentifiers
import SchemaCompiler.Proofs.RepeatedRuns
import SchemaCompiler.Proofs.RereadDocuments
import SchemaCompiler.Proofs.SoundDiagrams
