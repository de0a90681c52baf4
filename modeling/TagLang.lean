import TagLang.Command
import TagLang.Host.Standard
import TagLang.Main
import TagLang.Session
import TagLang.Source.FileTree
import TagLang.Source.Sighting
import TagLang.Proofs.Closure
import TagLang.Proofs.Account
import TagLang.Proofs.CallFrame
import TagLang.Proofs.Growth
import TagLang.Proofs.Shapes
import TagLang.Proofs.Loading
import TagLang.Proofs.Structured
import TagLang.Proofs.Safety
import TagLang.Proofs.Matching
import TagLang.Proofs.Evaluation
import TagLang.Proofs.ControlFlow
import TagLang.Proofs.Sessions
import TagLang.Proofs.Expression
import TagLang.Proofs.Scanning
import TagLang.Proofs.Planting
import TagLang.Proofs.Precedence
import TagLang.Proofs.Meaning
import TagLang.Proofs.Reading
import TagLang.Proofs.Printing
import TagLang.Proofs.Returning
import TagLang.Proofs.Nesting
import TagLang.Proofs.Evolution
import TagLang.Proofs.Resting
import TagLang.Proofs.Descent
import TagLang.Proofs.Halting
import TagLang.Proofs.Script
import TagLang.Proofs.Spelling
import TagLang.Proofs.Parsing
import TagLang.Proofs.Rows
import TagLang.Proofs.Fitting
import TagLang.Proofs.Grammar
import TagLang.Proofs.Segments
import TagLang.Proofs.Declarations
import TagLang.Proofs.BaseDirectory
import TagLang.Proofs.Reloading
import TagLang.Proofs.Lockstep
import TagLang.Proofs.Absence
import TagLang.Proofs.Respacing
import TagLang.Proofs.Construction
import TagLang.Proofs.Transitions
import TagLang.Proofs.Stations
import TagLang.Proofs.Making
import TagLang.Proofs.Limits
import TagLang.Proofs.Copies
import TagLang.Proofs.Slots
import TagLang.Proofs.Grouping
import TagLang.Proofs.History
import TagLang.Proofs.Imports
import TagLang.Proofs.LoadResult
import TagLang.Proofs.Pairing
import TagLang.Proofs.Reordering
import TagLang.Proofs.Exactness
import TagLang.Proofs.Elements
import TagLang.Proofs.Layout
import TagLang.Proofs.Classification
import TagLang.Proofs.Numerals
import TagLang.Proofs.Bracketing
import TagLang.Proofs.Acceptance
import TagLang.Proofs.Assignments
import TagLang.Proofs.Decimals
import TagLang.Proofs.Phrases
import TagLang.Proofs.Registrations
