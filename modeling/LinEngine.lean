import LinEngine.Confluence
import LinEngine.AffineRuns
import LinEngine.Principal
import LinEngine.Expansion
import LinEngine.Numeral
import LinEngine.Datatype
import LinEngine.Gate
import LinEngine.Wave
import LinEngine.Encoding
import LinEngine.Arithmetic
import LinEngine.Literal
import LinEngine.Interning
import LinEngine.FreeList
import LinEngine.Forcing
import LinEngine.Dictionary
import LinEngine.Queue
import LinEngine.Values
import LinEngine.Qualify
import LinEngine.Boxing
import LinEngine.Regauge
import LinEngine.Effects
import LinEngine.Printing
import LinEngine.Raised
import LinEngine.Gauges
import LinEngine.Trusted
import LinEngine.Reading
import LinEngine.Quoted
import LinEngine.Directives
import LinEngine.FoldShape
import LinEngine.Bridge
import LinEngine.Limits
import LinEngine.Loading
import LinEngine.ParseInt
import LinEngine.AotSearch
import LinEngine.Stamps
import LinEngine.PatCache
import LinEngine.StableOrder
import LinEngine.Registry
import LinEngine.Orbits
import LinEngine.Determinant
import LinEngine.Identifiers
import LinEngine.ActQueue
import LinEngine.Demand
import LinEngine.PairEnds
import LinEngine.Forest
import LinEngine.EGraph
import LinEngine.EgCosts
import LinEngine.EgRuns
import LinEngine.Extraction
import LinEngine.LoadFile
import LinEngine.Descent
import LinEngine.Outcome
import LinEngine.Kernel
import LinEngine.Interleave
import LinEngine.Slice
import LinEngine.Saving
import LinEngine.Activation
import LinEngine.Standstill
import LinEngine.Soundness
import LinEngine.Rereading
import LinEngine.Written
import LinEngine.Conversion
import LinEngine.EgMeaning
import LinEngine.EgPreserved
