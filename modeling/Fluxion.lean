import Fluxion.Main
import Fluxion.Number.Reading
import Fluxion.Proofs.Cache.Estimates
import Fluxion.Proofs.Cache.Names
import Fluxion.Proofs.Cache.Recency
import Fluxion.Proofs.Cache.SingleFlight
import Fluxion.Proofs.Cache.Statistics
import Fluxion.Proofs.Cache.Window
import Fluxion.Proofs.Calculus.Coverage
import Fluxion.Proofs.Calculus.Divisions
import Fluxion.Proofs.Calculus.NormalForm
import Fluxion.Proofs.Code.DerivativeNesting
import Fluxion.Proofs.Code.Renaming
import Fluxion.Proofs.Code.Resolution
import Fluxion.Proofs.Expr.Depth
import Fluxion.Proofs.Kernel.Compilation
import Fluxion.Proofs.Number.Additive
import Fluxion.Proofs.Number.Promotion
import Fluxion.Proofs.Session.Answering
import Fluxion.Proofs.Session.Closing
import Fluxion.Proofs.Session.Failure
import Fluxion.Proofs.Session.Identity
import Fluxion.Proofs.Session.Naming
import Fluxion.Proofs.Session.Sampling
import Fluxion.Proofs.Session.Spelling
import Fluxion.Proofs.Session.Transparency
import Fluxion.Proofs.Session.Use
import Fluxion.Proofs.Session.Variables
import Fluxion.Proofs.Session.Window
import Fluxion.Proofs.Source.Diagnosis
import Fluxion.Proofs.Source.Spans
