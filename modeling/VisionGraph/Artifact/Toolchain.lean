import VisionGraph.Artifact.Library
/-!
Toolchains: how the source of a unit becomes a library, and the identity that tells toolchains apart.
-/

namespace VisionGraph

/-- Values of environment variables. -/
abbrev Environment := String → Option String

/-- A way to compile sources. The result is what the compiler wrote, if it wrote anything. -/
structure Toolchain where
  name : String
  /-- Becomes part of every key of the library store. -/
  identity : String
  compile : String → Except BuildFault (Option Library)

structure ToolchainConfig where
  compiler : Option String
  optLevel : Nat
  extraFlags : List String
deriving DecidableEq, Repr

namespace ToolchainConfig

def standard : ToolchainConfig := ⟨none, 2, []⟩

/-- The highest level that compilers know. -/
def maxOptLevel : Nat := 3

def withOptLevel (c : ToolchainConfig) (level : Nat) : ToolchainConfig :=
  { c with optLevel := min level maxOptLevel }

/-- The variable that chooses the compiler. -/
def compilerVariable : String := "VXFORGE_CC"

/-- The compiler to call: the configured one or else the first that the environment names. A name of
blanks stands for the default. -/
def resolve (c : ToolchainConfig) (env : Environment) : String :=
  match c.compiler <|> env compilerVariable <|> env "CC" with
  | some name => if allBlank name then "cc" else name
  | none => "cc"

def flags (c : ToolchainConfig) : List String :=
  ["-shared", "-fPIC", s!"-O{min c.optLevel maxOptLevel}", "-std=c11"] ++ c.extraFlags

end ToolchainConfig

instance : Inhabited ToolchainConfig := ⟨.standard⟩

/-- The program and the flags of a compiler call, without the file names. -/
structure CompilerCall where
  program : String
  flags : List String
deriving DecidableEq, Repr

namespace CompilerCall

def ofConfig (c : ToolchainConfig) (env : Environment) : CompilerCall := ⟨c.resolve env, c.flags⟩

def identity (c : CompilerCall) : String := c.program ++ " " ++ String.intercalate " " c.flags

end CompilerCall

/-- What a program does when it is called as a compiler. -/
inductive ProgramConduct where
  | compiles
  /-- Ends well and writes nothing. -/
  | idle
  /-- Ends with a status other than zero. -/
  | fails (status : Nat)
deriving DecidableEq, Repr

/-- The programs that can be called. -/
abbrev Programs := String → Option ProgramConduct

/-- The programs of a plain system. -/
def Programs.plain : Programs
  | "cc" => some .compiles
  | "true" => some .idle
  | "false" => some (.fails 1)
  | _ => none

namespace Toolchain

/-- File extension of libraries. -/
def extension : String := ".so"

/-- A compiler called as a program. -/
def ofCall (programs : Programs) (call : CompilerCall) : Toolchain where
  name := "cc"
  identity := call.identity
  compile := fun source =>
    match programs call.program with
    | none => .error (.spawn call.program)
    | some .idle => .ok none
    | some (.fails status) => .error (.exited call.program status "")
    | some .compiles =>
      if Library.compiles source then .ok (some (.code (Exports.ofSource source)))
      else .error (.exited call.program 1 "")

/-- Refuses every source with the same words. -/
def refusing (diagnostics : String) : Toolchain where
  name := "refusing"
  identity := "refusing"
  compile := fun _ => .error (.refused diagnostics)

end Toolchain

end VisionGraph
