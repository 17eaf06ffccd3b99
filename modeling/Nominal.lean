import Nominal.Logging.Journal
import Nominal.Proofs.Antisymmetry
import Nominal.Proofs.DeclarationOrder
import Nominal.Proofs.Instantiation
import Nominal.Proofs.MostSpecialized
import Nominal.Proofs.ProperTypes
import Nominal.Proofs.Recursion
import Nominal.Proofs.Registration
import Nominal.Proofs.Repetition
import Nominal.Proofs.Rawness
import Nominal.Proofs.Transitivity
import Nominal.Proofs.WriteOnce
import Nominal.Script.Session
import Nominal.Settings.Load
import Nominal.Settings.Schema
import Nominal.Type.Equality
import Nominal.Proofs.Digests
import Nominal.Proofs.Composition
import Nominal.Proofs.UniqueReading
import Nominal.Proofs.CircularBounds
import Nominal.Proofs.MemberTypes
import Nominal.Proofs.ArrayClosures
import Nominal.Proofs.Reflexivity
import Nominal.Proofs.Connectedness
import Nominal.Proofs.Generalization
import Nominal.Proofs.RawUses
import Nominal.Proofs.Variance
import Nominal.Proofs.BoxedOnce
import Nominal.Proofs.EffectiveFilter
import Nominal.Proofs.BestEffort
import Nominal.Proofs.Unanswered
