import PdfFunctions.Color
import PdfFunctions.Function.Declaration
import PdfFunctions.Main
import PdfFunctions.Proofs.Braces
import PdfFunctions.Proofs.StackEffects
import PdfFunctions.Proofs.OperatorEffects
import PdfFunctions.Proofs.BodyCapture
import PdfFunctions.Proofs.MachineSteps
import PdfFunctions.Proofs.Moments
import PdfFunctions.Proofs.OpenCalls
import PdfFunctions.Proofs.PendingBodies
import PdfFunctions.Proofs.Layout
import PdfFunctions.Proofs.LastMoment
import PdfFunctions.Proofs.OperandCount
import PdfFunctions.Proofs.OperandLimit
import PdfFunctions.Proofs.CallDepth
import PdfFunctions.Proofs.ValueRuns
import PdfFunctions.Proofs.StructuredPrograms
import PdfFunctions.Proofs.BodyReading
import PdfFunctions.Proofs.StructuredRuns
import PdfFunctions.Proofs.MachineParts
import PdfFunctions.Proofs.Lockstep
import PdfFunctions.Proofs.LockstepRuns
import PdfFunctions.Proofs.Invariants
import PdfFunctions.Proofs.Endings
import PdfFunctions.Proofs.MoreRoom
import PdfFunctions.Proofs.MemoryBound
import PdfFunctions.Proofs.BranchBudget
import PdfFunctions.Proofs.Termination
import PdfFunctions.Proofs.Spans
import PdfFunctions.Proofs.Lexing
import PdfFunctions.Proofs.Unlogged
import PdfFunctions.Proofs.TextPieces
import PdfFunctions.Proofs.Defects
import PdfFunctions.Proofs.AcceptedTables
import PdfFunctions.Proofs.Interpolation
import PdfFunctions.Proofs.SampledTable
import PdfFunctions.Proofs.Warnings
import PdfFunctions.Proofs.Calculations
import PdfFunctions.Proofs.OperatorTable
import PdfFunctions.Proofs.Clipping
import PdfFunctions.Proofs.SoundFunctions
import PdfFunctions.Proofs.ResultShape
import PdfFunctions.Proofs.StitchedParts
import PdfFunctions.Proofs.ProgramErrors
import PdfFunctions.Proofs.Loading
import PdfFunctions.Proofs.Refusals
import PdfFunctions.Proofs.MissingOperands
import PdfFunctions.Proofs.BarePrograms
import PdfFunctions.Proofs.TableBounds
import PdfFunctions.Proofs.NullEntries
import PdfFunctions.Proofs.SubDomains
import PdfFunctions.Proofs.Deliveries
import PdfFunctions.Proofs.ExactIntegers
import PdfFunctions.Proofs.CountedOperators
import PdfFunctions.Proofs.StackIdentities
import PdfFunctions.Proofs.NearestDouble
import PdfFunctions.Proofs.Rounding
import PdfFunctions.Proofs.NumberSpans
import PdfFunctions.Proofs.RadixLiterals
import PdfFunctions.Proofs.DecimalGrammar
import PdfFunctions.Proofs.DecimalLiterals
import PdfFunctions.Proofs.IntegerOperands
import PdfFunctions.Proofs.IntegerDivision
import PdfFunctions.Proofs.Shifts
import PdfFunctions.Proofs.BodyScan
import PdfFunctions.Proofs.EvaluationReports
import PdfFunctions.Proofs.ColorConversion
import PdfFunctions.Proofs.ShadingSlices
import PdfFunctions.Proofs.RealSpelling
import PdfFunctions.Proofs.BitStrings
import PdfFunctions.Proofs.SamplePacking
