import QuantumCompiler.Circuit.Builder
import QuantumCompiler.Circuit.Json
import QuantumCompiler.Compiler
import QuantumCompiler.Device.Shape
import QuantumCompiler.Options.Json
import QuantumCompiler.Proofs.Optimization.Peephole
import QuantumCompiler.Proofs.Synthesis.Shannon
import QuantumCompiler.Proofs.Routing.Run
import QuantumCompiler.Proofs.Lowering.Basic
import QuantumCompiler.Proofs.Lowering.Native
import QuantumCompiler.Proofs.Layout.Packing
import QuantumCompiler.Proofs.Random.Stream
import QuantumCompiler.Proofs.Layout.Parts
import QuantumCompiler.Proofs.Layout.Groups
import QuantumCompiler.Proofs.Layout.Places
import QuantumCompiler.Proofs.Layout.Components
import QuantumCompiler.Proofs.Routing.Search
import QuantumCompiler.Proofs.Flow.Search
import QuantumCompiler.Proofs.Dag.Cyclic
import QuantumCompiler.Proofs.Binding
import QuantumCompiler.Proofs.Circuit.Basic
import QuantumCompiler.Proofs.Routing.Census
import QuantumCompiler.Proofs.Optimization.Runs
import QuantumCompiler.Proofs.Flow.Preset
import QuantumCompiler.Proofs.Dag.Accepted
import QuantumCompiler.Proofs.Lowering.Split
import QuantumCompiler.Proofs.Lowering.Settled
import QuantumCompiler.Proofs.Optimization.Resynthesis
import QuantumCompiler.Proofs.Flow.Faults
import QuantumCompiler.Proofs.Flow.Measured
import QuantumCompiler.Proofs.Device.Tables
import QuantumCompiler.Proofs.Device.Shape
import QuantumCompiler.Proofs.Device.CostTable
import QuantumCompiler.Proofs.Device.Costs
import QuantumCompiler.Proofs.Optimization.FixedPoint
import QuantumCompiler.Proofs.Optimization.Shrinking
import QuantumCompiler.Proofs.Dag.Refused
import QuantumCompiler.Proofs.Lowering.Ladder
import QuantumCompiler.Proofs.Flow.Placed
import QuantumCompiler.Proofs.Synthesis.Multiplexed
import QuantumCompiler.Proofs.Layout.Assignment
import QuantumCompiler.Proofs.Routing.Release
import QuantumCompiler.Proofs.Flow.Best
import QuantumCompiler.Proofs.Dag.Chains
import QuantumCompiler.Proofs.Lowering.Complete
import QuantumCompiler.Proofs.Lowering.Rules
import QuantumCompiler.Proofs.Optimization.Laws
import QuantumCompiler.Proofs.Synthesis.Interaction
import QuantumCompiler.Proofs.Matrix.Local
import QuantumCompiler.Proofs.Synthesis.Rebuilt
import QuantumCompiler.Proofs.Synthesis.Bounded
import QuantumCompiler.Proofs.Synthesis.Tolerance
import QuantumCompiler.Proofs.Synthesis.Euler
import QuantumCompiler.Proofs.Matrix.Roots
import QuantumCompiler.Proofs.Circuit.Json
import QuantumCompiler.Proofs.Circuit.Builder
