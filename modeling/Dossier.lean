import Dossier.Accounts
import Dossier.Files.Tree
import Dossier.Json.Scalar
import Dossier.Main
import Dossier.Proofs.BuildOrder
import Dossier.Proofs.BulkUpdates
import Dossier.Proofs.CanonicalDates
import Dossier.Proofs.ChronologicalDates
import Dossier.Proofs.CompiledFields
import Dossier.Proofs.CompiledPaths
import Dossier.Proofs.Conformance
import Dossier.Proofs.EnvelopeTexts
import Dossier.Proofs.InsertedUpdates
import Dossier.Proofs.LexicalScope
import Dossier.Proofs.ListedValues
import Dossier.Proofs.Logins
import Dossier.Proofs.ManagedStamps
import Dossier.Proofs.MergedFilters
import Dossier.Proofs.NumbersAsTexts
import Dossier.Proofs.PasswordSecrecy
import Dossier.Proofs.PathLaws
import Dossier.Proofs.ProjectedDocuments
import Dossier.Proofs.PromotedReferences
import Dossier.Proofs.ReadAfterWrite
import Dossier.Proofs.ReadableRows
import Dossier.Proofs.SchemaTexts
import Dossier.Proofs.Selections
import Dossier.Proofs.ShownIds
import Dossier.Proofs.SortedAnswers
import Dossier.Proofs.SpelledIds
import Dossier.Proofs.StoreRefinement
import Dossier.Proofs.WrittenBack
