import ViewTyping.Catalog.Call
import ViewTyping.CommandLine
import ViewTyping.Expr.Assembly
import ViewTyping.Main
import ViewTyping.Registry.Call
import ViewTyping.Proofs.NameOrder
import ViewTyping.Proofs.Occurrences
import ViewTyping.Proofs.ProgramGraph
import ViewTyping.Proofs.Registration
import ViewTyping.Proofs.CheckRun
import ViewTyping.Proofs.Assignment
import ViewTyping.Proofs.Unfolding
import ViewTyping.Proofs.Acceptance
import ViewTyping.Proofs.DeclarationOrder
import ViewTyping.Proofs.CatalogHistory
import ViewTyping.Proofs.RegistryRefinement
import ViewTyping.Proofs.RegistryHistory
import ViewTyping.Proofs.RegistrationOrder
import ViewTyping.Proofs.GraphEdits
import ViewTyping.Proofs.DecisionVariables
import ViewTyping.Proofs.Modularity
import ViewTyping.Proofs.CaseInsensitivity
import ViewTyping.Proofs.JsonSpelling
import ViewTyping.Proofs.ProgramSpelling
import ViewTyping.Proofs.CallOmission
import ViewTyping.Proofs.RegistrationLog
import ViewTyping.Proofs.JsonGrammar
import ViewTyping.Proofs.JsonPrinting
import ViewTyping.Proofs.OutputModes
import ViewTyping.Proofs.PartialReadings
import ViewTyping.Proofs.DueRecords
import ViewTyping.Proofs.DueFaults
import ViewTyping.Proofs.LoadFaults
import ViewTyping.Proofs.ByteOrder
import ViewTyping.Proofs.LeastOrder
import ViewTyping.Proofs.CycleWalk
import ViewTyping.Proofs.Locality
import ViewTyping.Proofs.FirstFault
import ViewTyping.Proofs.ReadPaths
import ViewTyping.Proofs.RegistrationOutcome
import ViewTyping.Proofs.NameIndex
import ViewTyping.Proofs.CheckedSorting
import ViewTyping.Proofs.IgnoredParts
import ViewTyping.Proofs.SubqueryWarnings
import ViewTyping.Proofs.AliasErasure
import ViewTyping.Proofs.UniqueReading
