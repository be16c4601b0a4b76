import MegaZK.Assembly.Basic
import MegaZK.Assembly.Passes
import MegaZK.Assembly.Reuse
import MegaZK.Assembly.Shape
import MegaZK.BigUint.Basic
import MegaZK.BigUint.DivRem
import MegaZK.BigUint.Division
import MegaZK.BigUint.Euclid
import MegaZK.BigUint.Inverse
import MegaZK.BigUint.Orders
import MegaZK.BigUint.Quotients
import MegaZK.BigUint.Run
import MegaZK.BigUint.Targets
import MegaZK.BigUint.Value
import MegaZK.BitReversal
import MegaZK.Challenger.Basic
import MegaZK.Challenger.Tracking
import MegaZK.Curve25519.Arithmetic
import MegaZK.Curve25519.Decompression
import MegaZK.Curve25519.Encoding
import MegaZK.Curve25519.FieldElement51
import MegaZK.Curve25519.SquareRoot
import MegaZK.Device
import MegaZK.Field.BatchInverse
import MegaZK.Field.Interpolation
import MegaZK.Field.QuadraticField
import MegaZK.Fri.Binding
import MegaZK.Fri.Combination
import MegaZK.Fri.Commit
import MegaZK.Fri.CommitPhase
import MegaZK.Fri.CommitRefinement
import MegaZK.Fri.CommitStage
import MegaZK.Fri.CommittedTrees
import MegaZK.Fri.Completeness
import MegaZK.Fri.CompressedColumns
import MegaZK.Fri.CompressedProof
import MegaZK.Fri.Compression
import MegaZK.Fri.Extension
import MegaZK.Fri.ExtensionNtt
import MegaZK.Fri.Fft
import MegaZK.Fri.FinalPolynomial
import MegaZK.Fri.Folding
import MegaZK.Fri.InitialContents
import MegaZK.Fri.Lengths
import MegaZK.Fri.MerkleTree
import MegaZK.Fri.Pow
import MegaZK.Fri.ProveOpenings
import MegaZK.Fri.Prover
import MegaZK.Fri.QueryPhase
import MegaZK.Fri.RoundTrip
import MegaZK.Fri.Strategies
import MegaZK.Fri.Transpose
import MegaZK.Fri.Verifier
import MegaZK.Goldilocks
import MegaZK.Kernel
import MegaZK.Lib.Butterfly
import MegaZK.Lib.Circles
import MegaZK.Lib.Cover
import MegaZK.Lib.Dft
import MegaZK.Lib.Fold
import MegaZK.Lib.Folding
import MegaZK.Lib.GrandProduct
import MegaZK.Lib.Grid
import MegaZK.Lib.Grouping
import MegaZK.Lib.Horner
import MegaZK.Lib.Kahn
import MegaZK.Lib.LatticeRounding
import MegaZK.Lib.LongDivision
import MegaZK.Lib.LongestPath
import MegaZK.Lib.MerkleLayers
import MegaZK.Lib.MerklePath
import MegaZK.Lib.ParentForest
import MegaZK.Lib.Placement
import MegaZK.Lib.Pratt
import MegaZK.Lib.PrimeDigits
import MegaZK.Lib.Radix
import MegaZK.Lib.Relational
import MegaZK.Lib.Scan
import MegaZK.Lib.Scatter
import MegaZK.Lib.Text
import MegaZK.Lib.TimeDecimation
import MegaZK.Lib.Word
import MegaZK.Merkle.Compression
import MegaZK.Merkle.Proofs
import MegaZK.NonNative.Accesses
import MegaZK.NonNative.Gadgets
import MegaZK.NonNative.Glv
import MegaZK.NonNative.GlvDecomposition
import MegaZK.NonNative.KernelAgreement
import MegaZK.NonNative.KernelSpecs
import MegaZK.NonNative.Kernels
import MegaZK.Openings
import MegaZK.Overlay
import MegaZK.PartialProducts.Basic
import MegaZK.PartialProducts.Host
import MegaZK.PartialProducts.Kernels
import MegaZK.PartialProducts.Limits
import MegaZK.PartialProducts.Refinement
import MegaZK.Permutation.Argument
import MegaZK.Permutation.Completeness
import MegaZK.Permutation.CopyClasses
import MegaZK.Permutation.CosetShifts
import MegaZK.Permutation.Forest
import MegaZK.Permutation.Sigma
import MegaZK.Poseidon.Gate
import MegaZK.Poseidon.Permutation
import MegaZK.Poseidon.PublicInputs
import MegaZK.Poseidon.Tables
import MegaZK.Poseidon.Words
import MegaZK.Query.Basic
import MegaZK.Query.Index
import MegaZK.Query.Leaves
import MegaZK.Query.Offsets
import MegaZK.Query.Scratch
import MegaZK.Query.Siblings
import MegaZK.Quotient.Constraints
import MegaZK.Quotient.Dispatch
import MegaZK.Quotient.GateCoverage
import MegaZK.Quotient.GateKernels
import MegaZK.Quotient.Gates
import MegaZK.Quotient.RandomAccess
import MegaZK.Quotient.Selectors
import MegaZK.Quotient.Vanishing
import MegaZK.Quotient.ZPartial
import MegaZK.Quotient.ZPartialRefinement
import MegaZK.Tiles.Coverage
import MegaZK.Tiles.FinalPoly
import MegaZK.Tiles.MulExp
import MegaZK.Tiles.ReverseIndexBits
import MegaZK.Transcript.Agreement
import MegaZK.Transcript.Basic
import MegaZK.U32.AddMany
import MegaZK.U32.Arithmetic
import MegaZK.U32.Comparison
import MegaZK.U32.Completeness
import MegaZK.U32.Generator
import MegaZK.U32.GeneratorKernels
import MegaZK.U32.Limbs
import MegaZK.U32.Uninterleave
import MegaZK.Witgen.Acceptance
import MegaZK.Witgen.Capacity
import MegaZK.Witgen.Execution
import MegaZK.Witgen.Generator
import MegaZK.Witgen.Graph
import MegaZK.Witgen.HashIndependence
import MegaZK.Witgen.HostWitness
import MegaZK.Witgen.Leftover
import MegaZK.Witgen.Levels
import MegaZK.Witgen.LongestPaths
import MegaZK.Witgen.Placement
import MegaZK.Witgen.Plan
import MegaZK.Witgen.PlanLayout
import MegaZK.Witgen.PlanMaps
import MegaZK.Witgen.Producers
import MegaZK.Witgen.Refinement
import MegaZK.Witgen.Schedule
import MegaZK.Witgen.Validity
import MegaZK.WordOffsets
