import VisionGraph.CUnit.Basic
import VisionGraph.CUnit.Block
/-!
The source text of a plan: one entry point that checks its handles, allocates the storage of the run,
runs the stages in turn and frees the storage. A stage that fails leaves with its position plus one.
-/

namespace VisionGraph

namespace CUnit

/-- The version of the binary interface. -/
def abiVersion : Nat := 1

/-- Lines of one-statement functions that limit an integer to a type. -/
def saturation (type short low high : String) : String :=
  s!"static inline {type} vxf_sat_{short}(int64_t v) \x7b return ({type})vxf_clamp_i64(v, {low}, {high}); \x7d"

/-- What every unit starts with. -/
def prelude : List String :=
  ["#include <stddef.h>", "#include <stdint.h>", "#include <stdlib.h>", "#include <string.h>", "#include <math.h>",
    "",
    "typedef struct \x7b", "    void *items;", "    uint64_t num_items;", "    uint64_t capacity;", "\x7d vxf_array_t;",
    "",
    "typedef struct \x7b", "    int32_t x;", "    int32_t y;", "\x7d vxf_coordinates2d_t;",
    "",
    "static inline int64_t vxf_clamp_i64(int64_t v, int64_t lo, int64_t hi)",
    "\x7b", "    return v < lo ? lo : (v > hi ? hi : v);", "\x7d",
    "",
    "static inline double vxf_clamp_f64(double v, double lo, double hi)",
    "\x7b", "    return v < lo ? lo : (v > hi ? hi : v);", "\x7d",
    "",
    "/* Truncates toward zero; NaN maps to 0 and the range covers every integer pixel format. */",
    "static inline int64_t vxf_trunc_f64(double v)",
    "\x7b", "    if (v != v) \x7b", "        return 0;", "    \x7d",
    "    return (int64_t)vxf_clamp_f64(v, -2147483648.0, 4294967295.0);", "\x7d",
    "",
    saturation "uint8_t" "u8" "0" "255",
    saturation "uint16_t" "u16" "0" "65535",
    saturation "int16_t" "s16" "-32768" "32767",
    saturation "uint32_t" "u32" "0" "4294967295LL",
    saturation "int32_t" "s32" "-2147483648LL" "2147483647LL"]

/-- The declaration of an object that lives during a run. -/
def declareScratch (o : ObjectId) : Meta → Except Error String
  | .image m =>
    match m.format with
    | some f => .ok s!"{f.cType} *v{o.index} = NULL;"
    | none => .error (.state (.noFormat o))
  | .scalar m =>
    match m.type with
    | some t => .ok s!"{t.cType} s{o.index} = 0;"
    | none => .error (.state (.noScalarType o))
  | .array _ => .ok s!"vxf_array_t a{o.index} = \x7b NULL, 0, 0 \x7d;"
  | .pyramid m =>
    match m.levels with
    | some n => .ok s!"void *p{o.index}[{max n.toNat 1}] = \x7b 0 \x7d;"
    | none => .error (.state (.noLevels o))
  | .delay _ => .error (.state (.delayInside o))

/-- Leaves the entry point when an allocation failed. -/
def unlessAllocated (expr : String) : String :=
  s!"if ({expr} == NULL) \x7b status = -3; goto done; \x7d"

/-- The allocation of one level of a pyramid. -/
def allocateLevel (o : ObjectId) (m : PyramidMeta) (format : Format) (level : Nat) : Except Error (List String) :=
  match m.levelDims (UInt32.ofNat level) with
  | some (w, h) =>
    let table := s!"p{o.index}[{level}]"
    let count := max (w.toNat * h.toNat * format.channels) 1
    .ok [s!"{table} = calloc({count}u, sizeof({format.cType}));", unlessAllocated table]
  | none => .error (.state (.openScratch o))

/-- The allocation of an object that lives during a run. -/
def allocateScratch (o : ObjectId) : Meta → Except Error (List String)
  | .image m =>
    match m.format, m.pixelCount with
    | some f, some count =>
      let c := f.cType
      .ok [s!"v{o.index} = ({c} *)calloc({max (count * f.channels) 1}u, sizeof({c}));",
        unlessAllocated s!"v{o.index}"]
    | _, _ => .error (.state (.openScratch o))
  | .array m =>
    match m.itemType, m.capacity with
    | some t, some capacity =>
      .ok [s!"a{o.index}.items = calloc({max capacity.toNat 1}u, sizeof({t.cType}));",
        s!"a{o.index}.capacity = {capacity.toNat}u;", unlessAllocated s!"a{o.index}.items"]
    | _, _ => .error (.state (.openScratch o))
  | .pyramid m =>
    match m.levels, m.format with
    | some levels, some f => ((List.range levels.toNat).mapM (allocateLevel o m f)).map List.flatten
    | _, _ => .error (.state (.openScratch o))
  | .scalar _ | .delay _ => .ok []

/-- The release of an object that lives during a run. -/
def freeScratch (o : ObjectId) : Meta → List String
  | .image _ => [s!"free(v{o.index});"]
  | .array _ => [s!"free(a{o.index}.items);"]
  | .pyramid m =>
    braced s!"for (uint32_t k = 0; k < {max (m.levels.getD 0).toNat 1}u; ++k)" [s!"free(p{o.index}[k]);"]
  | .scalar _ | .delay _ => []

/-- The check that no entry of a table of pointers is missing. -/
def checkTable (p : Plan) (o : ObjectId) (i : Nat) : List String :=
  let length : Option UInt32 := match p.info? o with
    | some (.delay m) => some m.slots
    | some (.pyramid m) => m.levels
    | _ => none
  match length with
  | none => []
  | some n =>
    braced s!"for (uint32_t k = 0; k < {n.toNat}u; ++k)"
      (braced s!"if (((void *const *)objects[{i}])[k] == NULL)" ["return -2;"])

/-- The block of a stage inside the entry point. -/
def stageBlock (position : Nat) (stage : Stage) (body : String) : String :=
  let kernels := String.intercalate " + " stage.kernels
  let origins := String.intercalate ", " (stage.origins.map NodeId.text)
  let lines := (body.splitToList (· == '\n')).dropLast
  codeLines (
    [s!"    /* [{position}] {kernels} ({origins}) */", "    \x7b",
      s!"#define VXF_NODE_FAIL do \x7b status = {position + 1}; goto done; \x7d while (0)"] ++
    lines.map (fun line => if line.isEmpty then "" else "        " ++ line) ++
    ["#undef VXF_NODE_FAIL", "    \x7d"])

/-- The helpers of all fragments, each once, in the order of their first use. -/
def helpersOf (fragments : List Fragment) : List Helper := (fragments.flatMap (·.helpers)).eraseDups

/-- The text of the unit around the blocks of the stages. -/
def assemble (p : Plan) (s : Storage) (helpers : List Helper) (blocks : List String) : Except Error String := do
  let scratch ← s.scratch.mapM fun o =>
    match p.info? o with
    | some info => Except.ok (o, info)
    | none => .error (.state (.noMeta o))
  let declarations ← scratch.mapM fun (o, info) => declareScratch o info
  let allocations ← scratch.mapM fun (o, info) => allocateScratch o info
  let tables := s.entries.zipIdx.flatMap fun (o, i) => checkTable p o i
  let checks :=
    braced "if (count != VXF_OBJECT_COUNT)" ["return -1;"] ++
    braced "for (uint32_t k = 0; k < count; ++k)" (braced "if (objects[k] == NULL)" ["return -2;"]) ++
    tables
  let frees := scratch.flatMap fun (o, info) => freeScratch o info
  let indent (lines : List String) := lines.map ("    " ++ ·)
  return codeLines (["/* Generated by vxforge. */"] ++ prelude ++
      ["", s!"#define VXF_ABI_VERSION {abiVersion}u", s!"#define VXF_OBJECT_COUNT {s.entries.length}u", ""]) ++
    String.join (helpers.map fun h => h.text ++ "\n\n") ++
    codeLines (
      ["uint32_t vxf_abi_version(void) \x7b return VXF_ABI_VERSION; \x7d",
        "uint32_t vxf_object_count(void) \x7b return VXF_OBJECT_COUNT; \x7d", "",
        "int32_t vxf_process_graph(void *const *objects, uint32_t count)", "\x7b"] ++
      indent (["int32_t status = 0;"] ++ declarations ++ checks ++ allocations.flatten) ++ [""]) ++
    String.join blocks ++
    codeLines (["", "done:"] ++ indent (frees ++ ["return status;"]) ++ ["\x7d"])

end CUnit

namespace Plan

/-- Writes the unit of a plan. -/
def generate (r : Registry) (p : Plan) : Except Error CUnit := do
  let storage ← Storage.ofPlan p
  let fragments ← p.stages.mapM (p.fragment r storage)
  let blocks := (p.stages.zip fragments).zipIdx.map fun ((stage, f), i) => CUnit.stageBlock i stage f.body
  let source ← CUnit.assemble p storage (CUnit.helpersOf fragments) blocks
  return {
    source := source
    entries := storage.entries
    origins := p.stages.zipIdx.map fun (stage, i) => ⟨i, stage.origins, stage.kernels⟩ }

end Plan

end VisionGraph
