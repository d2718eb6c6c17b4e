import VisionGraph.Error
import VisionGraph.Text.Blank
/-!
Compiled libraries: what a source exports once compiled, and what is checked when a library is opened.

Sources are the generated units and small hand-written ones of the same layout: each exported function
starts a line, and a function that only returns a number is one line.
-/

namespace VisionGraph

/-- What the entry point of a library does when called. -/
inductive EntryPoint where
  /-- Returns a fixed status. -/
  | status (code : Int)
  /-- Runs the stages of the plan that the source was written for. -/
  | schedule
deriving DecidableEq, Repr

/-- The symbols of a library; a missing one is none. -/
structure Exports where
  version : Option Nat
  objectCount : Option Nat
  entry : Option EntryPoint
deriving DecidableEq, Repr

/-- The contents of a library file. -/
inductive Library where
  | code (exports : Exports)
  /-- Something else, of a size in bytes. -/
  | data (size : Nat)
deriving DecidableEq, Repr

namespace Exports

def versionSymbol : String := "vxf_abi_version"

def countSymbol : String := "vxf_object_count"

def entrySymbol : String := "vxf_process_graph"

/-- The text between two marks, the first of its kind. -/
def between? (opening closing text : String) : Option String :=
  match text.splitOn opening with
  | _ :: rest :: _ => (rest.splitOn closing).head?
  | _ => none

/-- The value of a named number. -/
def define? (lines : List String) (name : String) : Option String :=
  lines.findSome? fun line =>
    match line.splitOn " " with
    | ["#define", found, value] => if found = name then some value else none
    | _ => none

/-- An unsigned literal, reduced to 32 bits. -/
def literal? (text : String) : Option Nat :=
  let digits := text.toList.reverse.dropWhile (· == 'u') |>.reverse
  (digits? digits).map (· % UInt32.size)

/-- The number that a one-line function returns, as a literal or by name. -/
def count? (lines : List String) (symbol : String) : Option Nat :=
  (lines.find? (·.startsWith s!"uint32_t {symbol}(")).bind fun line =>
    (between? "return " ";" line).bind fun value =>
      literal? ((define? lines value).getD value)

/-- A status, reduced to 32 bits. -/
def status? (text : String) : Option Int :=
  match text.toList with
  | '-' :: rest => (digits? rest).map fun n => Int.bmod (-n) UInt32.size
  | rest => (digits? rest).map fun n => Int.bmod n UInt32.size

def entry? (lines : List String) : Option EntryPoint :=
  (lines.find? (·.startsWith s!"int32_t {entrySymbol}(")).bind fun line =>
    match between? "return " ";" line with
    | some value => (status? value).map .status
    | none => some .schedule

/-- What a source exports once compiled. -/
def ofSource (source : String) : Exports :=
  let lines := source.splitOn "\n"
  { version := count? lines versionSymbol
    objectCount := count? lines countSymbol
    entry := entry? lines }

/-- The smallest source with given exports; an entry point that returns a fixed status is all it can have. -/
def toSource (note : String) (e : Exports) : String :=
  let line (text : String) := text ++ "\n"
  let counter (symbol : String) (value : Option Nat) : String :=
    value.elim "" fun n => line (s!"uint32_t {symbol}(void) " ++ s!"\x7b return {n}u; \x7d")
  let entry := match e.entry with
    | some (.status code) =>
      line (s!"int32_t {entrySymbol}(void *const *o, uint32_t c) " ++ s!"\x7b (void)o; (void)c; return {code}; \x7d")
    | _ => ""
  line "#include <stdint.h>" ++ line s!"/* {note} */" ++ counter versionSymbol e.version ++
    counter countSymbol e.objectCount ++ entry

end Exports

namespace Library

/-- The text without comments. -/
def dropComments : (inside : Bool) → List Char → List Char
  | _, [] => []
  | false, '/' :: '*' :: rest => dropComments true rest
  | false, c :: rest => c :: dropComments false rest
  | true, '*' :: '/' :: rest => dropComments false rest
  | true, _ :: rest => dropComments true rest

/-- Whether the braces of code match and every statement before a closing brace is ended. `braces` says
of each open brace whether it encloses values; `last` is the last character that is not blank. -/
def closed : (braces : List Bool) → (last : Char) → List Char → Bool
  | braces, last, [] => braces.isEmpty && (last == ';' || last == '\x7d')
  | braces, last, c :: rest =>
    if c = '\x7b' then closed ((last == '=' || braces.head?.getD false) :: braces) c rest
    else if c = '\x7d' then
      match braces with
      | [] => false
      | values :: outer =>
        (values || last == ';' || last == '\x7b' || last == '\x7d') && closed outer c rest
    else if isBlank c then closed braces last rest
    else closed braces c rest

/-- Whether a compiler takes the source. -/
def compiles (source : String) : Bool :=
  let code := (source.splitOn "\n").filter fun line => !line.startsWith "#"
  closed [] ';' (dropComments false (String.intercalate "\n" code).toList)

/-- Files of fewer bytes cannot hold a header. -/
def headerSize : Nat := 64

/-- Checks a library that is to serve a number of objects. -/
def checked (path : String) (expected : Nat) : Library → Except LoadFault EntryPoint
  | .data size => .error (if size < headerSize then .tooShort path else .badHeader path)
  | .code exports =>
    match exports.version, exports.objectCount, exports.entry with
    | none, _, _ => .error (.missingSymbol path Exports.versionSymbol)
    | some _, none, _ => .error (.missingSymbol path Exports.countSymbol)
    | some _, some _, none => .error (.missingSymbol path Exports.entrySymbol)
    | some version, some count, some entry =>
      if version ≠ 1 then .error (.version path version)
      else if count ≠ expected then .error (.objectCount (some path) count expected)
      else .ok entry

/-- Opens a library. A bare file name is looked up among the libraries of the system, where it is not
found. -/
def opened (path : String) (expected : Nat) (library : Library) : Except LoadFault EntryPoint :=
  if path.contains '/' then library.checked path expected else .error (.notFound path)

end Library

end VisionGraph
