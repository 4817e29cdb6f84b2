import Respell.Main
import Respell.LogFormat
import Respell.Proofs.Persistence
import Respell.Proofs.Simultaneous
import Respell.Proofs.Fusion
import Respell.Proofs.Output
import Respell.Proofs.Tables
import Respell.Proofs.Unmatched
import Respell.Proofs.Walks
import Respell.Proofs.Acceptance
import Respell.Proofs.Ambiguity
import Respell.Proofs.Commuting
import Respell.Proofs.Unambiguous
import Respell.Proofs.Specialization
import Respell.Proofs.Rearrangement
import Respell.Proofs.Qualification
import Respell.Proofs.Endings
import Respell.Proofs.SpelledNames
import Respell.Proofs.Visibility
import Respell.Proofs.Outline
import Respell.Proofs.Arrays
import Respell.Proofs.BindingStacks
import Respell.Proofs.OccurringNames
import Respell.Proofs.SpelledInFull
import Respell.Proofs.Renaming
import Respell.Proofs.Messages
import Respell.Proofs.PlainReports
import Respell.Proofs.Guards
import Respell.Proofs.DeclaredIds
