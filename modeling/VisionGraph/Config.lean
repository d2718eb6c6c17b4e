import VisionGraph.Artifact.Store
import VisionGraph.Codec.Plan
import VisionGraph.Failure
/-!
Configuration of the compiler, from a file and from the environment.
-/

namespace VisionGraph

open Json

structure CompilerConfig where
  optimizer : OptimizerConfig
  toolchain : ToolchainConfig
  cacheDir : Option String
deriving DecidableEq, Repr

namespace ToolchainConfig

def toJson (c : ToolchainConfig) : Json :=
  record ((match c.compiler with
      | some name => [("compiler", ofText name)]
      | none => []) ++
    [("opt_level", ofNat c.optLevel), ("extra_flags", ofList ofText c.extraFlags)])

def ofJson? (j : Json) : Option ToolchainConfig := do
  let fs ← j.fields? ["compiler", "opt_level", "extra_flags"]
  return {
    compiler := ← fs.orElse "compiler" none (option? text?)
    optLevel := ← fs.orElse "opt_level" standard.optLevel (nat? UInt8.size)
    extraFlags := ← fs.orElse "extra_flags" [] (list? text?) }

end ToolchainConfig

namespace CompilerConfig

def standard : CompilerConfig := ⟨.standard, .standard, none⟩

def toJson (c : CompilerConfig) : Json :=
  record ([("optimizer", c.optimizer.toJson), ("toolchain", c.toolchain.toJson)] ++
    (match c.cacheDir with
      | some path => [("cache_dir", ofText path)]
      | none => []))

/-- What is left out is as in the standard configuration. -/
def ofJson? (j : Json) : Option CompilerConfig := do
  let fs ← j.fields? ["optimizer", "toolchain", "cache_dir"]
  return {
    optimizer := ← fs.orElse "optimizer" .standard OptimizerConfig.ofJson?
    toolchain := ← fs.orElse "toolchain" .standard ToolchainConfig.ofJson?
    cacheDir := ← fs.orElse "cache_dir" none (option? text?) }

/-- The configuration in the text of a file. -/
def ofText (path text : String) : Except Failure CompilerConfig :=
  match (Json.parse? text).bind ofJson? with
  | some c => .ok c
  | none => .error (.configInvalid path)

/-- The variable that sets the optimisation level. -/
def levelVariable : String := "VXFORGE_OPT_LEVEL"

/-- An optimisation level as it is written in the environment. -/
def level? (text : String) : Option Nat :=
  let digits := match trimBlanks text.toList with
    | '+' :: digits => digits
    | digits => digits
  (digits? digits).filter (· ≤ ToolchainConfig.maxOptLevel)

/-- The configuration with what the environment overrides. Values that mean nothing are ignored. -/
def override (c : CompilerConfig) (env : Environment) : CompilerConfig where
  optimizer := c.optimizer
  cacheDir :=
    match (env Store.directoryVariable).filter (!·.isEmpty) with
    | some path => some path
    | none => c.cacheDir
  toolchain :=
    { c.toolchain with
      optLevel := ((env levelVariable).bind level?).getD c.toolchain.optLevel
      compiler :=
        match (env ToolchainConfig.compilerVariable).filter (!allBlank ·) with
        | some name => some name
        | none => c.toolchain.compiler }

/-- Where libraries are kept. -/
def storePath (c : CompilerConfig) (env : Environment) (temporary : String) : String :=
  c.cacheDir.getD (Store.defaultPath env temporary)

end CompilerConfig

instance : Inhabited CompilerConfig := ⟨.standard⟩

end VisionGraph
