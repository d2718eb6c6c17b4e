import VisionGraph.Proofs.Certificate

/-! Writers of objects. In an accepted graph no two nodes write one object, and a virtual object that a node reads has
been written by then, unless the node writes it itself. -/
namespace VisionGraph

/-- A node binds an object to a parameter of a direction. -/
def Node.Binds (n : Node) (slot : Nat) (d : Direction) (o : ObjectId) : Prop :=
  n.params[slot]? = some (some o) ∧
    ∃ k, Registry.standard.find? n.kernel = some k ∧ k.signature.directions[slot]? = some d

def Node.Writes (n : Node) (o : ObjectId) : Prop := ∃ slot d, n.Binds slot d o ∧ d.writes = true

/-- One node is executed before another one. -/
def Plan.Before (p : Plan) (a b : NodeId) : Prop :=
  ∃ i j : Nat, i < j ∧ (p.stages.map Stage.first)[i]? = some a ∧ (p.stages.map Stage.first)[j]? = some b

namespace Graph

variable {g : Graph} {l : List Checked} {c : Checked} {o : ObjectId}

theorem Scheduled.binds_iff (h : Scheduled .standard g l) (hc : c ∈ l) {slot : Nat} {d : Direction} :
    c.node.Binds slot d o ↔ c.node.params[slot]? = some (some o) ∧ c.directions[slot]? = some d := by
  have hfind := h.find_kernel hc
  constructor
  · intro hb
    obtain ⟨hparam, k, hk, hd⟩ := hb
    rw [hfind, Option.some.injEq] at hk
    subst hk
    exact ⟨hparam, hd⟩
  · intro hb
    exact ⟨hb.1, c.kernel, hfind, hb.2⟩

theorem Scheduled.writes_iff (h : Scheduled .standard g l) (hc : c ∈ l) :
    c.node.Writes o ↔ o ∈ c.access.writes := by
  rw [Checked.mem_writes]
  unfold Node.Writes
  simp only [h.binds_iff hc, and_assoc]

/-- The nodes of a graph are those of its schedule. -/
theorem Scheduled.exists_position (h : Scheduled .standard g l) {n : Node} (hn : n ∈ g.nodes) :
    ∃ (i : Nat) (hi : i < l.length), l[i].node = n := by
  obtain ⟨c, hc, rfl⟩ := List.mem_map.mp (h.nodes.mem_iff.mpr hn)
  obtain ⟨i, hi, rfl⟩ := List.getElem_of_mem hc
  exact ⟨i, hi, rfl⟩

/-- Of two nodes the later one writes nothing that the earlier one names; so a writer comes first. -/
theorem Scheduled.le_of_writes (h : Scheduled .standard g l) {i j : Nat} (hi : i < l.length) (hj : j < l.length)
    (hw : o ∈ l[i].access.writes) (hb : o ∈ l[j].node.bound) : i ≤ j := by
  by_contra hlt
  exact List.pairwise_iff_getElem.mp h.after j i hj hi (by omega) o hw hb

theorem before_planOf {known : Array Meta} {i j : Nat} (hi : i < l.length) (hj : j < l.length) (hlt : i < j) :
    (g.planOf l known).Before l[i].node.id l[j].node.id := by
  have hfirst : (g.planOf l known).stages.map Stage.first = l.map fun c => c.node.id := by
    rw [planOf, List.map_map]
    rfl
  refine ⟨i, j, hlt, ?_, ?_⟩
  · rw [hfirst, List.getElem?_map, List.getElem?_eq_getElem hi, Option.map_some]
  · rw [hfirst, List.getElem?_map, List.getElem?_eq_getElem hj, Option.map_some]

/-- Every object is bound to one parameter at most that is written. -/
def WrittenOnce (g : Graph) : Prop :=
  ∀ m ∈ g.nodes, ∀ n ∈ g.nodes, ∀ (i j : Nat) (d e : Direction) (o : ObjectId),
    m.Binds i d o → n.Binds j e o → d.writes = true → e.writes = true → m = n ∧ i = j

/-- Every virtual object that a node reads and that is no constant is written by another node before. -/
def DefinedBeforeUse (g : Graph) (p : Plan) : Prop :=
  ∀ n ∈ g.nodes, ∀ (slot : Nat) (o : ObjectId) (x : DataObject), n.Binds slot .input o → g.object? o = some x →
    x.isVirtual = true → x.isConstant = false → ∃ w ∈ g.nodes, w ≠ n ∧ w.Writes o ∧ p.Before w.id n.id

/-- No object has two nodes that write it. A virtual object that a node reads without writing it is written by another
node, and that one is executed before. -/
theorem writer_before_readers (g : Graph) (p : Plan) (h : g.verify .standard = .ok p) :
    (∀ m ∈ g.nodes, ∀ n ∈ g.nodes, ∀ o : ObjectId, m.Writes o → n.Writes o → m = n) ∧
      ∀ n ∈ g.nodes, ∀ (slot : Nat) (o : ObjectId) (x : DataObject), n.Binds slot .input o → g.object? o = some x →
        x.isVirtual = true → x.isConstant = false → ¬n.Writes o →
          ∃ w ∈ g.nodes, w ≠ n ∧ w.Writes o ∧ p.Before w.id n.id := by
  obtain ⟨l, known, hl, rfl⟩ := exists_resolves h
  constructor
  · intro m hm n hn o hmw hnw
    obtain ⟨i, hi, rfl⟩ := hl.exists_position hm
    obtain ⟨j, hj, rfl⟩ := hl.exists_position hn
    rw [hl.writes_iff (List.getElem_mem hi)] at hmw
    rw [hl.writes_iff (List.getElem_mem hj)] at hnw
    have hij : i ≤ j := hl.le_of_writes hi hj hmw (Checked.bound_of_writes hnw)
    have hji : j ≤ i := hl.le_of_writes hj hi hnw (Checked.bound_of_writes hmw)
    have heq : i = j := by omega
    subst heq
    rfl
  · intro n hn slot o x hbinds hx hvirtual hconst hno
    obtain ⟨j, hj, rfl⟩ := hl.exists_position hn
    obtain ⟨hparam, hdir⟩ := (hl.binds_iff (List.getElem_mem hj)).mp hbinds
    -- the check of the parameter has found a writer of the object
    obtain ⟨b, hb, hw⟩ : ∃ b ∈ l, o ∈ b.access.writes := by
      simp only [Checked.directions, Signature.directions, List.getElem?_map, Option.map_eq_some_iff] at hdir
      obtain ⟨spec, hspec, hinput⟩ := hdir
      have hzip : (spec, some o) ∈ l[j].kernel.signature.params.zip l[j].node.params :=
        List.mem_iff_getElem?.mpr ⟨slot, List.getElem?_zip_eq_some.mpr ⟨hspec, hparam⟩⟩
      obtain ⟨y, hy, _, _, _, hwritten⟩ := hl.fits l[j] (List.getElem_mem hj) _ hzip
      have hyx : y = x := Option.some.inj (hy.symm.trans hx)
      subst hyx
      exact hwritten hinput hvirtual hconst
    obtain ⟨i, hi, rfl⟩ := List.getElem_of_mem hb
    have hij : i ≤ j := hl.le_of_writes hi hj hw (Node.mem_bound.mpr ⟨slot, hparam⟩)
    have hwrites : l[i].node.Writes o := (hl.writes_iff hb).mpr hw
    have hne : l[i].node ≠ l[j].node := by
      intro he
      exact hno (he ▸ hwrites)
    have hlt : i < j := by
      apply Nat.lt_of_le_of_ne hij
      intro he
      subst he
      exact hne rfl
    exact ⟨l[i].node, hl.nodes.mem_iff.mp (List.mem_map.mpr ⟨_, hb, rfl⟩), hne, hwrites, before_planOf hi hj hlt⟩

theorem writer_before_readers_backwards : ∃ p, backwards.verify .standard = .ok p ∧
    ∃ w ∈ backwards.nodes, w.Writes ⟨1⟩ ∧ p.Before w.id ⟨0⟩ := by
  have hok : (backwards.verify .standard).toOption.isSome = true := by decide +kernel
  cases h : backwards.verify .standard with
  | error e => simp [h, Except.toOption] at hok
  | ok p =>
    obtain ⟨_, hfirst⟩ := writer_before_readers backwards p h
    have hinput : (⟨⟨0⟩, "vx.not", [some ⟨1⟩, some ⟨2⟩], .replicate⟩ : Node).Binds 0 .input ⟨1⟩ :=
      ⟨rfl, Kernel.not, rfl, rfl⟩
    have hno : ¬(⟨⟨0⟩, "vx.not", [some ⟨1⟩, some ⟨2⟩], .replicate⟩ : Node).Writes ⟨1⟩ := by
      intro hw
      obtain ⟨slot, d, ⟨hparam, k, hk, hd⟩, hwrites⟩ := hw
      have hkernel : k = Kernel.not := (Option.some.inj hk).symm
      subst hkernel
      cases slot with
      | zero =>
        cases hd
        cases hwrites
      | succ slot =>
        cases slot with
        | zero => cases hparam
        | succ slot => cases hparam
    obtain ⟨w, hw, _, hwrites, hbefore⟩ := hfirst _ (by decide) 0 ⟨1⟩ _ hinput rfl rfl rfl hno
    exact ⟨p, rfl, w, hw, hwrites, hbefore⟩

/-- A node that writes both of its results into one image, and a node that reads the virtual image that it writes. -/
def folded : Graph := Graph.empty.edit [.image 3 3 .u8, .image 3 3 .s16, .virtualImage ⟨some 2, some 2, some .u8⟩,
  .node "vx.sobel_3x3" [some ⟨0⟩, some ⟨1⟩, some ⟨1⟩], .node "vx.not" [some ⟨2⟩, some ⟨2⟩]]

/-- Verification looks at nodes, not at parameters: one node may bind an object twice. -/
theorem folded_accepted : folded.Built ∧ ∃ p, folded.verify .standard = .ok p ∧ ¬folded.WrittenOnce ∧
    ¬folded.DefinedBeforeUse p := by
  have hok : (folded.verify .standard).toOption.isSome = true := by decide +kernel
  refine ⟨⟨_, rfl⟩, ?_⟩
  cases h : folded.verify .standard with
  | error e => simp [h, Except.toOption] at hok
  | ok p =>
    refine ⟨p, rfl, ?_, ?_⟩
    · intro honce
      have hx : (⟨⟨0⟩, "vx.sobel_3x3", [some ⟨0⟩, some ⟨1⟩, some ⟨1⟩], .replicate⟩ : Node).Binds 1 .output ⟨1⟩ :=
        ⟨rfl, Kernel.sobel3x3, rfl, rfl⟩
      have hy : (⟨⟨0⟩, "vx.sobel_3x3", [some ⟨0⟩, some ⟨1⟩, some ⟨1⟩], .replicate⟩ : Node).Binds 2 .output ⟨1⟩ :=
        ⟨rfl, Kernel.sobel3x3, rfl, rfl⟩
      have hsame := honce _ (by decide) _ (by decide) 1 2 _ _ _ hx hy rfl rfl
      exact absurd hsame.2 (by decide)
    · intro hdefined
      have hinput : (⟨⟨1⟩, "vx.not", [some ⟨2⟩, some ⟨2⟩], .replicate⟩ : Node).Binds 0 .input ⟨2⟩ :=
        ⟨rfl, Kernel.not, rfl, rfl⟩
      obtain ⟨w, hw, hne, ⟨slot, d, ⟨hparam, _⟩, _⟩, _⟩ := hdefined _ (by decide) 0 ⟨2⟩ _ hinput rfl rfl rfl
      -- the other node does not name the virtual image
      have hnames : ∀ m ∈ folded.nodes, some ⟨2⟩ ∈ m.params → m.id = ⟨1⟩ := by decide
      have hids : ∀ m ∈ folded.nodes, m.id = ⟨1⟩ →
          m = ⟨⟨1⟩, "vx.not", [some ⟨2⟩, some ⟨2⟩], .replicate⟩ := by decide
      exact hne (hids w hw (hnames w hw (List.mem_of_getElem? hparam)))

end Graph

end VisionGraph
