import FeatureFile.View.Document
import FeatureFile.View.Language
import FeatureFile.Yaml.Definitions
import FeatureFile.Proofs.Agreement.Delivery
import FeatureFile.Proofs.Document.Contents
import FeatureFile.Proofs.Document.Reachable
import FeatureFile.Proofs.Document.Delivery
import FeatureFile.Proofs.Line.WellFormed
import FeatureFile.Proofs.Agreement.WellFormed
import FeatureFile.Proofs.Agreement.LineBreaks
import FeatureFile.Proofs.Agreement.KeywordOrder
import FeatureFile.Proofs.Grammar.Faultless
import FeatureFile.Proofs.Agreement.Incomplete
import FeatureFile.Proofs.Line.Owners
import FeatureFile.Proofs.Language.Filtering
import FeatureFile.Proofs.Line.Indentation
import FeatureFile.Proofs.Agreement.Featureless
import FeatureFile.Proofs.Language.Invariant
import FeatureFile.Proofs.Document.Flattening
import FeatureFile.Proofs.Agreement.Keywords
import FeatureFile.Proofs.Language.Errors
import FeatureFile.Proofs.Document.Composition
import FeatureFile.Proofs.Line.DocStrings
import FeatureFile.Proofs.Grammar.Termination
import FeatureFile.Proofs.Agreement.TagLines
import FeatureFile.Proofs.Language.StepKeywords
