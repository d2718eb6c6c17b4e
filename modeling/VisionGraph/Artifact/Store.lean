import VisionGraph.Artifact.Toolchain
import VisionGraph.CUnit.Basic
/-!
The store of compiled libraries: a directory of library files and the modules that were loaded from it.

A key is the digest of the source and the identity of the toolchain. A key whose module is loaded is
served from memory; otherwise its file is used, and a missing file is built first. A request that fails
leaves no module behind, so the next one tries again.
-/

namespace VisionGraph

/-- A library that was loaded. -/
structure Module where
  /-- How many modules were loaded before it. -/
  serial : Nat
  objectCount : Nat
  entry : EntryPoint
deriving DecidableEq, Repr

/-- What stands at the path of the store. -/
inductive Directory where
  | absent
  /-- A file, where no directory can be made. -/
  | blocked
  | files (libraries : List (String × Library))
deriving DecidableEq, Repr

namespace Directory

def find? (d : Directory) (key : String) : Option Library :=
  match d with
  | .files libraries => libraries.lookup key
  | .absent | .blocked => none

/-- Writes a library file; a directory that does not exist is made. -/
def put (d : Directory) (key : String) (library : Library) : Directory :=
  match d with
  | .files libraries => .files ((key, library) :: libraries)
  | .absent => .files [(key, library)]
  | .blocked => .blocked

/-- The directory after it was made where there was none. -/
def make? : Directory → Option Directory
  | .absent => some (.files [])
  | .files libraries => some (.files libraries)
  | .blocked => none

end Directory

structure Store where
  path : String
  directory : Directory
  modules : List (String × Module)
  /-- Calls of a compiler. -/
  builds : Nat
  /-- Modules loaded so far. -/
  loads : Nat
deriving DecidableEq, Repr

namespace Store

def fresh (path : String) : Store := ⟨path, .absent, [], 0, 0⟩

/-- The number of modules at hand. -/
def size (s : Store) : Nat := s.modules.length

def isEmpty (s : Store) : Bool := s.modules.isEmpty

/-- The variable that moves the default directory. -/
def directoryVariable : String := "VXFORGE_CACHE_DIR"

def defaultPath (env : Environment) (temporary : String) : String :=
  (env directoryVariable).getD (temporary ++ "/vxforge-cache")

/-- The digest of a source and a toolchain. -/
def key (u : CUnit) (t : Toolchain) : String :=
  Blake3.hex (u.source.toUTF8.push 0 ++ t.identity.toUTF8)

/-- The path of a library file; an empty directory path stands for none. -/
def libraryPath (s : Store) (key : String) : String :=
  let file := s!"libvxf_{key}{Toolchain.extension}"
  if s.path.isEmpty then file else if s.path.endsWith "/" then s.path ++ file else s.path ++ "/" ++ file

/-- Makes sure that there is a library file for a key. -/
def provide (s : Store) (key : String) (u : CUnit) (t : Toolchain) : Except BuildFault Library × Store :=
  match s.directory.find? key with
  | some library => (.ok library, s)
  | none =>
    match s.directory.make? with
    | none => (.error (.createDirectory s.path), s)
    | some directory =>
      let s := { s with directory := directory, builds := s.builds + 1 }
      match t.compile u.source with
      | .error fault => (.error fault, s)
      | .ok none => (.error (.install (s.libraryPath key)), s)
      | .ok (some library) => (.ok library, { s with directory := directory.put key library })

/-- Loads the module of a key, which is not at hand. -/
def load (s : Store) (key : String) (u : CUnit) (t : Toolchain) : Except Error Module × Store :=
  match s.provide key u t with
  | (.error fault, s) => (.error (.build fault), s)
  | (.ok library, s) =>
    match library.opened (s.libraryPath key) u.entries.length with
    | .error fault => (.error (.load fault), s)
    | .ok entry =>
      let m : Module := ⟨s.loads, u.entries.length, entry⟩
      (.ok m, { s with modules := (key, m) :: s.modules, loads := s.loads + 1 })

/-- The module of a unit. -/
def request (s : Store) (u : CUnit) (t : Toolchain) : Except Error Module × Store :=
  let k := key u t
  match s.modules.lookup k with
  | some m => (.ok m, s)
  | none => s.load k u t

/-- A new store on the same directory. -/
def reopen (s : Store) : Store := { s with modules := [], builds := 0 }

/-- Puts a file in the place of the library of a key. -/
def plant (s : Store) (key : String) (library : Library) : Store :=
  { s with directory := s.directory.put key library }

/-- Puts a file in the place of the directory. -/
def block (s : Store) : Store := { s with directory := .blocked }

/-- Removes the directory with its files; modules that are loaded stay. -/
def clear (s : Store) : Except Error Store :=
  match s.directory with
  | .blocked => .error (.build (.clearDirectory s.path))
  | .absent | .files _ => .ok { s with directory := .absent }

end Store

end VisionGraph
