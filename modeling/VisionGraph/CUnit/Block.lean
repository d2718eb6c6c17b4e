import VisionGraph.Kernel.Registry
import VisionGraph.Plan.Storage
/-!
The code of one stage: how its objects are named, and the block of statements that runs it.
-/

namespace VisionGraph

namespace Plan

/-- The expression that names an object inside the entry point. -/
def objectExpr (o : ObjectId) (info : Meta) (placement : Placement) : Except Error String :=
  let k := o.index
  let typed (format : Option Format) (text : String → String) : Except Error String :=
    match format with
    | some f => .ok (text f.cType)
    | none => .error (.state (.openObject o))
  match info, placement with
  | _, .constant v => .ok v.cLiteral
  | .image _, .internal => .ok s!"t{k}"
  | .image m, .entry i => typed m.format fun c => s!"(({c} *)objects[{i}])"
  | .image m, .slot i age => typed m.format fun c => s!"(({c} *)((void *const *)objects[{i}])[{age.toNat}])"
  | .image _, .scratch => .ok s!"v{k}"
  | .scalar m, .entry i =>
    match m.type with
    | some t => .ok s!"(*({t.cType} *)objects[{i}])"
    | none => .error (.state (.openObject o))
  | .scalar _, .scratch => .ok s!"s{k}"
  | .array _, .entry i => .ok s!"((vxf_array_t *)objects[{i}])"
  | .array _, .scratch => .ok s!"(&a{k})"
  | .pyramid _, .entry i => .ok s!"((void **)objects[{i}])"
  | .pyramid _, .scratch => .ok s!"p{k}"
  | info, placement => .error (.state (.cannotPlace o info.kind placement))

/-- An object as a template sees it. -/
def operand (p : Plan) (s : Storage) (o : ObjectId) : Except Error Operand := do
  match p.object? o with
  | none => throw (.state (.notInPlan o))
  | some r =>
    match s.placement? o with
    | none => throw (.state (.noStorage o))
    | some placement =>
      return ⟨o, r.info, ← objectExpr o r.info placement, r.object.constant⟩

def operands (p : Plan) (s : Storage) (params : List (Option ObjectId)) : Except Error (List (Option Operand)) :=
  params.mapM fun
    | none => .ok none
    | some o => (p.operand s o).map some

/-- The expression of one sample of an object. -/
def laneOf (s : Storage) (x : Operand) : Option String :=
  match s.placement? x.object with
  | none => none
  | some placement =>
    match x.info, placement with
    | .image _, .internal => some x.expr
    | .image _, _ => some s!"{x.expr}[i]"
    | .scalar _, _ => some x.expr
    | _, _ => none

/-- Samples of each image of a pixel-wise stage. -/
def extent? (p : Plan) (stage : Stage) : Option Nat :=
  stage.referenced.findSome? fun o => do
    let m ← (← p.info? o).image?
    return (← m.pixelCount) * (← m.format).channels

def kernelOf (r : Registry) (step : Step) : Except Error Kernel :=
  match r.find? step.kernel with
  | some k => .ok k
  | none => .error (.unknownKernel step.origin step.kernel)

def inTemplate {α : Type} (node : NodeId) : Emit α → Except Error α
  | .ok a => .ok a
  | .error e => .error (.template node e)

/-- The block of a stage that is not pixel-wise. -/
def kernelBlock (r : Registry) (p : Plan) (s : Storage) (stage : Stage) : Except Error Fragment :=
  match stage.steps with
  | [] => .error (.template stage.first .noExtent)
  | step :: _ => do
    let kernel ← kernelOf r step
    let operands ← p.operands s step.params
    inTemplate step.origin (kernel.block ⟨step.border, operands⟩)

/-- The guard and the statement of one step. -/
def stepCode (r : Registry) (p : Plan) (s : Storage) (step : Step) : Except Error (Option String × String) := do
  let kernel ← kernelOf r step
  let operands ← p.operands s step.params
  let lanes := operands.map fun x => x.bind (laneOf s)
  let site : Site := ⟨step.border, operands⟩
  let guard ← inTemplate step.origin (kernel.guard site lanes)
  let statement ← inTemplate step.origin (kernel.statement site lanes)
  return (guard, statement)

/-- The variable of an image inside the loop. -/
def internalLine (p : Plan) (stage : Stage) (o : ObjectId) : Except Error String :=
  match ((p.info? o).bind Meta.image?).bind (·.format) with
  | some f => .ok s!"{f.cType} t{o.index};"
  | none => .error (.template stage.first (.openLane o))

/-- One loop for all steps of a pixel-wise stage, after all their guards. -/
def pixelBlock (r : Registry) (p : Plan) (s : Storage) (stage : Stage) : Except Error Fragment := do
  match p.extent? stage with
  | none => throw (.template stage.first .noExtent)
  | some count =>
    let locals ← stage.internal.mapM (p.internalLine stage)
    let code ← stage.steps.mapM (stepCode r p s)
    let guards := code.filterMap (·.1)
    let loop := braced s!"for (size_t i = 0; i < (size_t){count}u; ++i)" (locals ++ code.map (·.2))
    return ⟨codeLines (guards ++ loop), []⟩

def fragment (r : Registry) (p : Plan) (s : Storage) (stage : Stage) : Except Error Fragment :=
  if stage.pixelwise then pixelBlock r p s stage else kernelBlock r p s stage

end Plan

end VisionGraph
