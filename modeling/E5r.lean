import E5r.AlignCorrect
import E5r.AnnotationPlacement
import E5r.CacheEntry
import E5r.CacheRoundTrip
import E5r.CallSites
import E5r.ChoiceReplay
import E5r.ContextDatabase
import E5r.DeflateRoundTrip
import E5r.DwarfBases
import E5r.ElementPrecedence
import E5r.EndsControl
import E5r.EscapeScan
import E5r.ExitGuards
import E5r.FlashCorrect
import E5r.FpConversions
import E5r.FpSquareRoot
import E5r.GapScan
import E5r.JumpTableScan
import E5r.LayoutPlaces
import E5r.LineLookup
import E5r.LocationCorrect
import E5r.LogicalImmediates
import E5r.NoReturn
import E5r.PatchMerges
import E5r.PreprocessSelects
import E5r.PrototypeCorrect
import E5r.Provenances
import E5r.PtxRoundTrip
import E5r.RamWords
import E5r.RangeAnalysis
import E5r.Reciprocals
import E5r.RefTrackerSound
import E5r.RemoveDead
import E5r.Sha256Correct
import E5r.SlaSafety
import E5r.SleighLossless
import E5r.SleighPatterns
import E5r.SleighRanges
import E5r.SsaDominators
import E5r.StringScan
import E5r.WorkRuns
import E5r.X86Exact
import E5r.XrefLookup
