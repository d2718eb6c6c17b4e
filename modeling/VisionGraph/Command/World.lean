import VisionGraph.Command.Measure
/-!
A system that exists in memory only: commands run against a set of files, and time stands still.
-/

namespace VisionGraph

structure World where
  files : List (String × String)
  out : String
  err : String
deriving DecidableEq, Repr

namespace World

/-- A clock that does not move. -/
def clock (m : Type → Type) [Monad m] : Clock m := ⟨pure 0, pure 0⟩

/-- The name of a file; a path may say that it starts here. -/
def fileName (path : String) : String :=
  match path.toList with
  | '.' :: '/' :: rest => String.ofList rest
  | _ => path

/-- The text of a file. -/
def file? (w : World) (path : String) : Option String := w.files.lookup (fileName path)

/-- Writes a file; there are no directories to write into. -/
def write (path text : String) : StateM World (Option String) := fun w =>
  let name := fileName path
  if name.contains '/' || name.isEmpty then (some "No such file or directory (os error 2)", w)
  else (none, { w with files := (name, text) :: w.files })

/-- The system over a world. Whatever is measured is written as a mark. -/
def system (env : Environment) : System (StateM World) where
  readText path := fun w => (w.file? path, w)
  writeText := write
  exists? path := fun w => ((w.file? path).isSome, w)
  print text := fun w => ((), { w with out := w.out ++ text })
  printError text := fun w => ((), { w with err := w.err ++ text })
  environment := env
  temporary := "/tmp"
  programs := .plain
  clock := clock _
  measured _ _ _ := "#"
  moment _ := "#"

/-- Runs a command and gives its exit code; a failure is written to the stream of errors. -/
def execute (w : World) (command : ExceptT Failure (StateM World) Unit) : Nat × World :=
  match command.run w with
  | (.ok (), w) => (0, w)
  | (.error f, w) => (1, { w with err := w.err ++ s!"Error: {f.message}\n" })

end World

end VisionGraph
