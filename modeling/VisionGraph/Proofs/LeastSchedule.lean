import Mathlib.Data.Fintype.Pigeonhole
import Mathlib.Data.Set.Finite.Basic
import Mathlib.Logic.Relation
import VisionGraph.Proofs.Sequence
import VisionGraph.Proofs.Schedule

/-! Scheduling is exact. There is a schedule unless nodes wait for each other in a circle; it is the first of all
schedules in the order of words, and what cannot be scheduled is what such a circle holds up. -/
namespace VisionGraph.Access

open Relation

/-- The node at one position writes an object that the node at another position reads. -/
def Precedes (accesses : List Access) (i j : Nat) : Prop :=
  i ≠ j ∧ ∃ a b, accesses[i]? = some a ∧ accesses[j]? = some b ∧ ∃ o ∈ a.writes, o ∈ b.reads

/-- A list of all positions in which nodes come before those that read what they write. -/
structure Schedules (accesses : List Access) (l : List Nat) : Prop where
  perm : l.Perm (List.range accesses.length)
  before : ∀ i j, Precedes accesses i j → l.idxOf i < l.idxOf j

/-- Nodes that wait for themselves, through any number of others. -/
def Circular (accesses : List Access) (i : Nat) : Prop := TransGen (Precedes accesses) i i

variable {accesses : List Access} {left : List (Access × Nat)}

theorem feeds_iff {a b : Access} : a.feeds b = true ↔ ∃ o ∈ a.writes, o ∈ b.reads := by
  simp [feeds]

theorem precedes_iff {i j : Nat} : Precedes accesses i j ↔ i ≠ j ∧
    ∃ a b, (a, i) ∈ accesses.zipIdx ∧ (b, j) ∈ accesses.zipIdx ∧ a.feeds b = true := by
  simp only [Precedes, List.mem_zipIdx_iff_getElem?, feeds_iff]

/-! ### The order of a schedule -/

/-- To have no node behind one that reads from it is to have each before all that read from it. -/
theorem ordered_iff_before {s : List (Access × Nat)} (hs : s.Perm accesses.zipIdx) :
    Ordered s ↔ ∀ i j, Precedes accesses i j → (s.map (·.2)).idxOf i < (s.map (·.2)).idxOf j := by
  have hnodup : (s.map (·.2)).Nodup := (hs.map _).nodup_iff.mpr (nodup_positions accesses)
  have hindex : ∀ x (hx : x < s.length), (s.map (·.2)).idxOf s[x].2 = x := by
    intro x hx
    have h := hnodup.idxOf_getElem x (by simpa using hx)
    rwa [List.getElem_map] at h
  constructor
  · intro hord i j hij
    obtain ⟨hne, a, b, ha, hb, hfeeds⟩ := precedes_iff.mp hij
    obtain ⟨x, hx, hax⟩ := List.getElem_of_mem (hs.mem_iff.mpr ha)
    obtain ⟨y, hy, hby⟩ := List.getElem_of_mem (hs.mem_iff.mpr hb)
    have hi : (s.map (·.2)).idxOf i = x := by simpa [hax] using hindex x hx
    have hj : (s.map (·.2)).idxOf j = y := by simpa [hby] using hindex y hy
    rw [hi, hj]
    rcases Nat.lt_trichotomy x y with hlt | heq | hlt
    · exact hlt
    · subst heq
      exact absurd (congrArg Prod.snd (hax.symm.trans hby)) hne
    · have hno := List.pairwise_iff_getElem.mp hord y x hy hx hlt
      rw [hax, hby] at hno
      simp [hno] at hfeeds
  · intro hbefore
    refine List.pairwise_iff_getElem.mpr fun x y hx hy hlt => ?_
    cases hfeeds : s[y].1.feeds s[x].1 with
    | false => rfl
    | true =>
      have hne : s[y].2 ≠ s[x].2 := by
        intro he
        have := hindex y hy
        rw [he, hindex x hx] at this
        omega
      have hlater := hbefore _ _ (precedes_iff.mpr ⟨hne, s[y].1, s[x].1, hs.mem_iff.mp (List.getElem_mem hy),
        hs.mem_iff.mp (List.getElem_mem hx), hfeeds⟩)
      rw [hindex x hx, hindex y hy] at hlater
      omega

/-- The schedules are the orders of the nodes in which no node feeds an earlier one. -/
theorem schedules_iff {l : List Nat} : Schedules accesses l ↔
    ∃ s : List (Access × Nat), s.Perm accesses.zipIdx ∧ l = s.map (·.2) ∧ Ordered s := by
  have hpositions : accesses.zipIdx.map (·.2) = List.range accesses.length := by
    rw [List.zipIdx_map_snd, List.range_eq_range']
  constructor
  · intro h
    obtain ⟨s, hs, rfl⟩ := exists_perm_map_eq (fun x : Access × Nat => x.2) (hpositions ▸ h.perm)
    exact ⟨s, hs, rfl, (ordered_iff_before hs).mpr h.before⟩
  · rintro ⟨s, hs, rfl, hord⟩
    exact ⟨hpositions ▸ hs.map _, (ordered_iff_before hs).mp hord⟩

/-- In a schedule no node waits for itself. -/
theorem Schedules.not_circular {l : List Nat} (h : Schedules accesses l) (i : Nat) : ¬Circular accesses i := by
  have hlt : ∀ {a b}, TransGen (Precedes accesses) a b → l.idxOf a < l.idxOf b := by
    intro a b hab
    induction hab with
    | single hab => exact h.before _ _ hab
    | tail _ hbc ih => exact Nat.lt_trans ih (h.before _ _ hbc)
  exact fun hi => Nat.lt_irrefl _ (hlt hi)

/-! ### The first schedule -/

theorem nodup_of_increasing (h : left.Pairwise fun a b => a.2 < b.2) : (left.map (·.2)).Nodup :=
  List.pairwise_map.mpr (h.imp Nat.ne_of_lt)

/-- Taking the first node that is ready gives the first of all orders in which no node feeds an earlier one. -/
theorem orderOf_least (hsorted : left.Pairwise fun a b => a.2 < b.2) {l : List Nat} (h : orderOf left = .ok l)
    {s : List (Access × Nat)} (hs : s.Perm left) (hord : Ordered s) :
    s.map (·.2) = l ∨ List.Lex (· < ·) l (s.map (·.2)) := by
  fun_induction orderOf left generalizing l s with
  | case1 left e hfind ih =>
    obtain ⟨rest, hrest, rfl⟩ := map_eq_ok.mp h
    have he : e ∈ left := List.mem_of_find?_eq_some hfind
    cases s with
    | nil => simp [List.nil_perm.mp hs] at he
    | cons c s =>
      obtain ⟨hc, hord'⟩ := List.pairwise_cons.mp hord
      have hready : ready left c = true := by
        refine List.all_eq_true.mpr fun p hp => ?_
        rcases List.mem_cons.mp (hs.mem_iff.mpr hp) with rfl | hp
        · simp
        · simp [hc p hp]
      -- the nodes before the one that was taken are not ready
      have hle : c = e ∨ e.2 < c.2 := by
        obtain ⟨_, front, back, rfl, hfront⟩ := List.find?_eq_some_iff_append.mp hfind
        obtain ⟨_, hback, _⟩ := List.pairwise_append.mp hsorted
        rcases List.mem_append.mp (hs.mem_iff.mp List.mem_cons_self) with hcf | hcb
        · have hno := hfront c hcf
          simp [hready] at hno
        · rcases List.mem_cons.mp hcb with hce | hcb
          · exact .inl hce
          · exact .inr ((List.pairwise_cons.mp hback).1 c hcb)
      rcases hle with rfl | hlt
      · have hperm : s.Perm (without left c.2) :=
          (hs.trans (perm_cons_without (nodup_of_increasing hsorted) he).symm).cons_inv
        rcases ih (hsorted.filter _) hrest hperm hord' with hsame | hlex
        · exact .inl (by rw [List.map_cons, hsame])
        · exact .inr (.cons hlex)
      · exact .inr (.rel hlt)
  | case2 left hfind hempty =>
    cases h
    rw [List.isEmpty_iff.mp hempty] at hs
    exact .inl (by rw [hs.eq_nil, List.map_nil])
  | case3 left hfind hempty => cases h

/-! ### What cannot be scheduled -/

/-- What is left over is the largest set of nodes each of which waits for another one of the set. -/
theorem orderOf_stuck (hn : (left.map (·.2)).Nodup) {stuck : List Nat} (h : orderOf left = .error stuck) :
    ∃ rest : List (Access × Nat), rest.Sublist left ∧ stuck = rest.map (·.2) ∧ rest ≠ [] ∧
      (∀ e ∈ rest, ∃ p ∈ rest, p.2 ≠ e.2 ∧ p.1.feeds e.1 = true) ∧
      ∀ waits : Access × Nat → Prop,
        (∀ e ∈ left, waits e → ∃ p ∈ left, waits p ∧ p.2 ≠ e.2 ∧ p.1.feeds e.1 = true) →
          ∀ e ∈ left, waits e → e ∈ rest := by
  fun_induction orderOf left generalizing stuck with
  | case1 left c hfind ih =>
    have hready : ready left c = true := List.find?_some hfind
    obtain ⟨rest, hsub, hstuck, hsome, hfed, hlargest⟩ : ∃ rest : List (Access × Nat), rest.Sublist (without left c.2) ∧
        stuck = rest.map (·.2) ∧ _ := by
      refine ih (nodup_without hn c.2) ?_
      cases hr : orderOf (without left c.2) with
      | ok order => simp [hr, Except.map] at h
      | error s => simpa [hr, Except.map] using h
    refine ⟨rest, hsub.trans List.filter_sublist, hstuck, hsome, hfed, fun waits hwaits => ?_⟩
    -- the node that was taken waits for none, so all that wait are among the others
    have hstay : ∀ e ∈ left, waits e → e ∈ without left c.2 := by
      intro e he hw
      refine mem_without.mpr ⟨he, fun heq => ?_⟩
      obtain ⟨p, hp, _, hne, hfeeds⟩ := hwaits e he hw
      have hec : e = c := List.inj_on_of_nodup_map hn he (List.mem_of_find?_eq_some hfind) heq
      subst hec
      have hno := List.all_eq_true.mp hready p hp
      simp [hne, hfeeds] at hno
    intro e he hw
    refine hlargest waits (fun e he hw => ?_) e (hstay e he hw) hw
    obtain ⟨p, hp, hpw, hne, hfeeds⟩ := hwaits e (mem_without.mp he).1 hw
    exact ⟨p, hstay p hp hpw, hpw, hne, hfeeds⟩
  | case2 left hfind hempty => cases h
  | case3 left hfind hempty =>
    cases h
    refine ⟨left, .refl left, rfl, by simpa using hempty, fun e he => ?_, fun _ _ e he _ => he⟩
    have hno := List.find?_eq_none.mp hfind e he
    simpa [ready] using hno

/-- Whoever waits for another one of finitely many is held up by a circle. -/
theorem exists_circle {before : Nat → Nat → Prop} {l : List Nat} (h : ∀ j ∈ l, ∃ i ∈ l, before i j) {j : Nat}
    (hj : j ∈ l) : ∃ i, TransGen before i i ∧ ReflTransGen before i j := by
  have hfinite : Finite {x // x ∈ l} := (List.finite_toSet l).to_subtype
  choose f hf using fun x : {x // x ∈ l} => show ∃ y : {x // x ∈ l}, before y.1 x.1 by
    obtain ⟨i, hi, hij⟩ := h x.1 x.2
    exact ⟨⟨i, hi⟩, hij⟩
  have hback : ∀ n x, TransGen before (f^[n + 1] x).1 x.1 := by
    intro n x
    induction n with
    | zero => exact .single (hf x)
    | succ n ih =>
      rw [Function.iterate_succ_apply']
      exact ih.head (hf _)
  -- going back from the node at hand, some node is met twice
  obtain ⟨m, n, hne, heq⟩ := Finite.exists_ne_map_eq_of_infinite fun n => f^[n] ⟨j, hj⟩
  wlog hlt : m < n generalizing m n
  · exact this n m hne.symm heq.symm (by omega)
  obtain ⟨k, rfl⟩ := Nat.exists_eq_add_of_lt hlt
  have hcircle := hback k (f^[m] ⟨j, hj⟩)
  rw [← Function.iterate_add_apply, show k + 1 + m = m + k + 1 by omega, ← heq] at hcircle
  refine ⟨_, hcircle, ?_⟩
  cases m with
  | zero => exact .refl
  | succ m => exact (hback m ⟨j, hj⟩).to_reflTransGen

/-- A node that a circle holds up waits for another node that the circle holds up. -/
theorem exists_held {i j : Nat} (hi : Circular accesses i) (hij : ReflTransGen (Precedes accesses) i j) :
    ∃ k, Precedes accesses k j ∧ ReflTransGen (Precedes accesses) i k := by
  rcases hij.cases_tail with rfl | ⟨k, hik, hkj⟩
  · obtain ⟨k, hik, hki⟩ := TransGen.tail'_iff.mp hi
    exact ⟨k, hki, hik⟩
  · exact ⟨k, hkj, hik⟩

theorem mem_stuck {stuck : List Nat} (h : order accesses = .error stuck) {j : Nat} :
    j ∈ stuck ↔ ∃ i, Circular accesses i ∧ ReflTransGen (Precedes accesses) i j := by
  obtain ⟨rest, hsub, rfl, _, hfed, hlargest⟩ := orderOf_stuck (nodup_positions accesses) h
  constructor
  · intro hj
    refine exists_circle (fun j hj => ?_) hj
    obtain ⟨e, he, rfl⟩ := List.mem_map.mp hj
    obtain ⟨p, hp, hne, hfeeds⟩ := hfed e he
    exact ⟨p.2, List.mem_map.mpr ⟨p, hp, rfl⟩,
      precedes_iff.mpr ⟨hne, p.1, e.1, hsub.mem hp, hsub.mem he, hfeeds⟩⟩
  · rintro ⟨i, hi, hij⟩
    obtain ⟨k, hkj, _⟩ := exists_held hi hij
    obtain ⟨_, _, b, _, hb, _⟩ := precedes_iff.mp hkj
    refine List.mem_map.mpr ⟨(b, j), hlargest (fun e => ReflTransGen (Precedes accesses) i e.2) ?_ _ hb hij, rfl⟩
    intro e he hie
    obtain ⟨k, hke, hik⟩ := exists_held hi hie
    obtain ⟨hne, a, b, ha, hb, hfeeds⟩ := precedes_iff.mp hke
    have hbe : b = e.1 := by
      have h₁ := List.mem_zipIdx_iff_getElem?.mp hb
      have h₂ := List.mem_zipIdx_iff_getElem?.mp he
      simpa [h₁] using h₂
    exact ⟨(a, k), ha, hik, hne, hbe ▸ hfeeds⟩

/-- The third node only waits for the circle of the first two; the fourth waits for none. -/
example : order [⟨[⟨1⟩], [⟨0⟩]⟩, ⟨[⟨0⟩], [⟨1⟩]⟩, ⟨[⟨1⟩], [⟨2⟩]⟩, ⟨[⟨3⟩], [⟨4⟩]⟩] = .error [0, 1, 2] := by decide +kernel

end VisionGraph.Access
