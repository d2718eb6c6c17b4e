import VisionGraph.Session.Pipeline
/-!
Sessions: a graph under construction with the stages of its compilation that are up to date.

Every edit drops all stages, also one that fails; asking for a stage computes what is missing.
-/

namespace VisionGraph

structure Session where
  graph : Graph
  pipeline : Pipeline
  verified : Option Plan
  optimized : Option (Plan × Report)
  unit : Option CUnit
  program : Option Program

/-- How far a session has come. -/
inductive SessionState where
  | unverified | verified | compiled
deriving DecidableEq, Repr

namespace Session

def ofGraph (l : Pipeline) (g : Graph) : Session := ⟨g, l, none, none, none, none⟩

def state (s : Session) : SessionState :=
  if s.program.isSome then .compiled else if s.verified.isSome then .verified else .unverified

/-- Changes the graph. -/
def edit {α : Type} (s : Session) (change : Graph → Except Error (α × Graph)) : Except Error α × Session :=
  let dropped := ofGraph s.pipeline s.graph
  match change s.graph with
  | .ok (a, g) => (.ok a, { dropped with graph := g })
  | .error e => (.error e, dropped)

/-- The checked plan. -/
def verify (s : Session) : Except Error Plan × Session :=
  match s.verified with
  | some p => (.ok p, s)
  | none =>
    match s.pipeline.verify s.graph with
    | .ok p => (.ok p, { s with verified := some p })
    | .error e => (.error e, s)

/-- The optimised plan of a session that is verified. -/
def optimize (s : Session) : Except Error (Plan × Report) × Session :=
  match s.verified, s.optimized with
  | none, _ => (.error (.state .notVerified), s)
  | some _, some result => (.ok result, s)
  | some p, none =>
    let result := s.pipeline.optimize p
    (.ok result, { s with optimized := some result })

/-- The source of a plan, which stays even when it cannot be built. -/
def generate (s : Session) (p : Plan) : Except Error CUnit × Session :=
  match s.unit with
  | some u => (.ok u, s)
  | none =>
    match s.pipeline.generate p with
    | .ok u => (.ok u, { s with unit := some u })
    | .error e => (.error e, s)

def build (s : Session) (p : Plan) (u : CUnit) : Except Error Program × Session :=
  match s.pipeline.build p u with
  | (.ok program, l) => (.ok program, { s with pipeline := l, program := some program })
  | (.error e, l) => (.error e, { s with pipeline := l })

/-- Does all that is missing up to the program. -/
def compileMissing (s : Session) : Except Error Program × Session :=
  match s.verify with
  | (.error e, s) => (.error e, s)
  | (.ok _, s) =>
    match s.optimize with
    | (.error e, s) => (.error e, s)
    | (.ok (p, _), s) =>
      match s.generate p with
      | (.error e, s) => (.error e, s)
      | (.ok u, s) => s.build p u

def compile (s : Session) : Except Error Program × Session :=
  match s.program with
  | some program => (.ok program, s)
  | none => s.compileMissing

/-- The source of the graph as it is now, which is not kept. -/
def emit (s : Session) : Except Error CUnit × Session :=
  match s.verify with
  | (.error e, s) => (.error e, s)
  | (.ok _, s) =>
    let (result, s) := s.optimize
    (result.bind fun (p, _) => s.pipeline.generate p, s)

/-- Fresh storage for every object that the caller binds. -/
def allocate (s : Session) : Except Error Bindings × Session :=
  let (result, s) := s.compile
  (result.bind Program.allocate, s)

/-- Whether bindings fit. -/
def check (s : Session) (b : Bindings) : Except Error Unit × Session :=
  let (result, s) := s.compile
  (result.bind (·.check b), s)

/-- Runs the graph once. -/
def process (s : Session) (b : Bindings) : Except Error Unit × Bindings × Session :=
  match s.compile with
  | (.error e, s) => (.error e, b, s)
  | (.ok program, s) =>
    let (result, b) := program.process b
    (result, b, s)

end Session

end VisionGraph
