import IncrementalBuild.Diagnostic.Json
import IncrementalBuild.Diagnostic.Log
import IncrementalBuild.Diagnostic.Report
import IncrementalBuild.Hash.Content
import IncrementalBuild.Json.Reader
import IncrementalBuild.Json.Writer
import IncrementalBuild.Main
import IncrementalBuild.Proofs.ArtifactOrder
import IncrementalBuild.Proofs.BlankedComments
import IncrementalBuild.Proofs.BundledText
import IncrementalBuild.Proofs.Carets
import IncrementalBuild.Proofs.ChangeDetectors
import IncrementalBuild.Proofs.CheckedExcerpts
import IncrementalBuild.Proofs.CleanBuild
import IncrementalBuild.Proofs.CompilerRuns
import IncrementalBuild.Proofs.ContentVersions
import IncrementalBuild.Proofs.Coordinates
import IncrementalBuild.Proofs.CycleLabels
import IncrementalBuild.Proofs.CycleReports
import IncrementalBuild.Proofs.DeclaredHeader
import IncrementalBuild.Proofs.DiagnosticPlaces
import IncrementalBuild.Proofs.DistinctOutputs
import IncrementalBuild.Proofs.DryRuns
import IncrementalBuild.Proofs.Emission
import IncrementalBuild.Proofs.EmissionOrder
import IncrementalBuild.Proofs.FileLists
import IncrementalBuild.Proofs.FileOrder
import IncrementalBuild.Proofs.ForgottenFiles
import IncrementalBuild.Proofs.HeaderComments
import IncrementalBuild.Proofs.Identities
import IncrementalBuild.Proofs.JoinedPaths
import IncrementalBuild.Proofs.Lifecycle
import IncrementalBuild.Proofs.LoadedSources
import IncrementalBuild.Proofs.MirroredOutputs
import IncrementalBuild.Proofs.PathSpellings
import IncrementalBuild.Proofs.ProjectFiles
import IncrementalBuild.Proofs.PrunedSessions
import IncrementalBuild.Proofs.Reanalysis
import IncrementalBuild.Proofs.Rebuild
import IncrementalBuild.Proofs.RecursiveVisits
import IncrementalBuild.Proofs.ReferenceClosure
import IncrementalBuild.Proofs.ReportedWalks
import IncrementalBuild.Proofs.Retry
import IncrementalBuild.Proofs.ShownVersions
import IncrementalBuild.Proofs.SortedOutput
import IncrementalBuild.Proofs.StagingUnseen
import IncrementalBuild.Proofs.StoreRuns
import IncrementalBuild.Proofs.StreamEnds
import IncrementalBuild.Proofs.Targets
import IncrementalBuild.Proofs.UnresolvedReferences
import IncrementalBuild.Text.Blank
import IncrementalBuild.Toml.Reader
