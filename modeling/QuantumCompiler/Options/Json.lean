import QuantumCompiler.Json.Decode
import QuantumCompiler.Json.Reader
import QuantumCompiler.Options

/-!
# Options as JSON

The reader of options. Every field has a default, so an empty object stands for the options without
any choice.
-/

namespace QuantumCompiler

open Json

def SearchOptions.ofJson? (j : Json) : Option (SearchOptions Float) := do
  let names := ["heuristic", "max_iterations", "seed", "initial_layout", "decay_delta",
    "extended_set_size", "decay_reset_interval", "extended_set_weight"]
  let base : SearchOptions Float := .standard
  match ← record? names 0 j with
  | [heuristic, iterations, seed, layout, decay, size, interval, weight] =>
    return {
      heuristic := ← optional? (tagged? Heuristic.ofTag?) heuristic
      maxIterations := ← orDefault? base.maxIterations word64? iterations
      seed := ← orDefault? base.seed word64? seed
      initialLayout := ← orDefault? base.initialLayout (tagged? LayoutStrategy.ofTag?) layout
      decayDelta := ← optional? double? decay
      extendedSetSize := ← optional? word64? size
      decayResetInterval := ← optional? word64? interval
      extendedSetWeight := ← orDefault? base.extendedSetWeight double? weight }
  | _ => none

namespace Assignment

/-- Gives a number to a name in an assignment sorted by name; a number given before is dropped. -/
def set (name : String) (value : Float) : Assignment Float → Assignment Float
  | [] => [(name, value)]
  | (n, v) :: rest =>
    if name = n then (n, value) :: rest
    else if name < n then (name, value) :: (n, v) :: rest
    else (n, v) :: set name value rest

/-- The assignment of named numbers, sorted by name; of several numbers for a name the last
counts. -/
def ofList (values : List (String × Float)) : Assignment Float :=
  values.foldl (fun a (name, value) => a.set name value) []

def ofJson? : Json → Option (Assignment Float)
  | .object fields => return .ofList (← fields.mapM fun (name, j) => return (name, ← j.double?))
  | _ => none

end Assignment

namespace CompileOptions

def ofJson? (j : Json) : Option (CompileOptions Float) := do
  let names := ["optimization_level", "sabre", "euler_basis", "parameters"]
  let base : CompileOptions Float := .standard
  match ← record? names 0 j with
  | [level, search, family, parameters] =>
    return {
      level := ← orDefault? base.level (natUpTo? 255) level
      search := ← orDefault? base.search SearchOptions.ofJson? search
      family := ← optional? (tagged? EulerFamily.ofTag?) family
      parameters := ← orDefault? base.parameters Assignment.ofJson? parameters }
  | _ => none

def read? (text : String) : Option (CompileOptions Float) := (Json.read? text).bind ofJson?

end CompileOptions

end QuantumCompiler
