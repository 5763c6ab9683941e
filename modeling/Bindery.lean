import Bindery.Main
import Bindery.Json.Grammar
import Bindery.Script.Reader
import Bindery.Proofs.Accumulation
import Bindery.Proofs.Arity
import Bindery.Proofs.Comprehension
import Bindery.Proofs.Deferral
import Bindery.Proofs.Desugaring
import Bindery.Proofs.Discards
import Bindery.Proofs.EarlyExit
import Bindery.Proofs.Freezing
import Bindery.Proofs.History
import Bindery.Proofs.Layout
import Bindery.Proofs.Listing
import Bindery.Proofs.Nesting
import Bindery.Proofs.Planning
import Bindery.Proofs.Settling
import Bindery.Proofs.Skipping
import Bindery.Proofs.Splitting
import Bindery.Proofs.Support
import Bindery.Proofs.Transcript
import Bindery.Proofs.Warnings
