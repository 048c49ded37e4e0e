import Art.Theorems.BoundsCheck
import Art.Theorems.Transaction
import Art.Theorems.SubtypeCheck
import Art.Theorems.LocalReferenceTable
import Art.Lib.Loop
import Art.Theorems.ClassLoaderRoundTrip
import Art.Theorems.HashSet
import Art.Theorems.ProfileMerge
import Art.Theorems.ProfileRoundTrip
import Art.Theorems.MethodVerifier
import Art.Theorems.RosAlloc
import Art.Theorems.Dominators
import Art.Theorems.TripCount
import Art.Theorems.InstructionSimplifier
import Art.Theorems.DexFileVerifier
import Art.Theorems.DexFile
import Art.Theorems.RosAllocSlots
import Art.Theorems.RosAllocRuns
import Art.Theorems.RosAllocSteps
import Art.Lib.MagicDivision
import Art.Compiler.DivRemByConstant
import Art.Theorems.MagicNumber
import Art.Theorems.DivRemByConstant
import Art.Compiler.LastValue
import Art.Theorems.LastValue
import Art.Libdexfile.Utf
import Art.Theorems.Utf
import Art.Theorems.UtfOrder
import Art.Libdexfile.TypeLookupTable
import Art.Theorems.TypeLookupTable
import Art.Dex2oat.IndexBssMapping
import Art.Theorems.IndexBssMapping
import Art.Compiler.ConstructorFence
import Art.Theorems.ConstructorFence
import Art.Theorems.ValueRange
import Art.Theorems.ArithmeticRanges
import Art.Compiler.LoadStoreAnalysis
import Art.Theorems.LoadStoreAnalysis
import Art.Compiler.Reachability
import Art.Theorems.Reachability
import Art.Theorems.InternRuns
import Art.Theorems.ImmuneSpaces
