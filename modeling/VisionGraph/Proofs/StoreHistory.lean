import VisionGraph.Proofs.Freshness
import VisionGraph.Proofs.Sequence

/-! Histories of a library store. A compiler runs exactly for the keys that have neither a module at hand nor a library
file. At most one run for a key makes a library, a failed run leaves nothing behind, and a module that was given once is
given from then on. -/
namespace VisionGraph

/-- What a request asks for. -/
structure Demand where
  unit : CUnit
  toolchain : Toolchain

namespace Demand

def key (d : Demand) : String := Store.key d.unit d.toolchain

/-- The library that the compiler makes of the source, if it makes one. -/
def library? (d : Demand) : Option Library := (d.toolchain.compile d.unit.source).toOption.join

end Demand

namespace Store

/-- Neither a module nor a library file is there for a key. -/
def lacks (s : Store) (k : String) : Bool := (s.modules.lookup k).isNone && (s.directory.find? k).isNone

/-- What a request gives depends on what the compiler does. -/
def Consults (s : Store) (d : Demand) : Prop :=
  ∃ compile, s.request d.unit { d.toolchain with compile := compile } ≠ s.request d.unit d.toolchain

end Store

/-- A request that was served, and the store before and after it. -/
structure Answer where
  demand : Demand
  before : Store
  result : Except Error Module
  after : Store

namespace Answer

def key (a : Answer) : String := a.demand.key

/-- Whether the request found nothing for its key. -/
def missed (a : Answer) : Bool := a.before.lacks a.key

/-- The library that was made for the request. -/
def made? (a : Answer) : Option Library := if a.missed then a.demand.library? else none

end Answer

namespace Store

def answer (s : Store) (d : Demand) : Answer :=
  ⟨d, s, (s.request d.unit d.toolchain).1, (s.request d.unit d.toolchain).2⟩

/-- The answers to requests in turn. -/
def answers : Store → List Demand → List Answer
  | _, [] => []
  | s, d :: rest => s.answer d :: (s.answer d).after.answers rest

/-- The store after requests in turn. -/
def serve (s : Store) (demands : List Demand) : Store := demands.foldl (fun s d => (s.answer d).after) s

end Store

namespace Directory

variable {d : Directory}

theorem exists_make? (h : d ≠ .blocked) : ∃ e, d.make? = some e ∧ e ≠ .blocked ∧ ∀ k, e.find? k = d.find? k := by
  cases d with
  | absent => exact ⟨.files [], rfl, nofun, fun k => rfl⟩
  | blocked => contradiction
  | files libraries => exact ⟨.files libraries, rfl, nofun, fun k => rfl⟩

theorem put_ne_blocked (h : d ≠ .blocked) (key : String) (library : Library) : d.put key library ≠ .blocked := by
  cases d with
  | absent => nofun
  | blocked => contradiction
  | files libraries => nofun

theorem find?_put (h : d ≠ .blocked) (key : String) (library : Library) (k : String) :
    (d.put key library).find? k = if k = key then some library else d.find? k := by
  have hcons (libraries : List (String × Library)) : ((key, library) :: libraries).lookup k =
      if k = key then some library else libraries.lookup k := by
    by_cases hk : k = key
    · rw [hk, List.lookup_cons_self, if_pos rfl]
    · rw [List.lookup_cons, beq_false_of_ne hk, if_neg hk]
  cases d with
  | absent => exact hcons []
  | blocked => contradiction
  | files libraries => exact hcons libraries

end Directory

namespace Store

variable {s : Store} {d : Demand} {k : String} {m : Module} {demands : List Demand}

/-! ### One request -/

theorem lacks_iff : s.lacks k = true ↔ s.modules.lookup k = none ∧ s.directory.find? k = none := by
  simp [lacks, Option.isNone_iff_eq_none]

theorem missed_answer (s : Store) (d : Demand) : (s.answer d).missed = s.lacks d.key := rfl

theorem made?_answer (s : Store) (d : Demand) :
    (s.answer d).made? = if s.lacks d.key then d.library? else none := rfl

theorem lacks_of_lookup (h : s.modules.lookup k = none) : s.lacks k = (s.directory.find? k).isNone := by
  simp [lacks, h]

/-- The files, and the runs of compilers, once a library is provided or could not be made. -/
structure Provided (s : Store) (d : Demand) (directory : Directory) (builds : Nat) : Prop where
  unblocked : directory ≠ .blocked
  find? : ∀ k, directory.find? k =
    if k = d.key ∧ s.directory.find? d.key = none then d.library? else s.directory.find? k
  builds : builds = s.builds + if (s.directory.find? d.key).isNone then 1 else 0

theorem provide_cases (h : s.directory ≠ .blocked) (d : Demand) : ∃ result directory builds,
    s.provide d.key d.unit d.toolchain = (result, { s with directory := directory, builds := builds }) ∧
      s.Provided d directory builds ∧ ∀ library, result = .ok library → directory.find? d.key = some library := by
  unfold provide
  cases hfile : s.directory.find? d.key with
  | some library =>
    refine ⟨.ok library, s.directory, s.builds, rfl, ⟨h, fun k => ?_, by rw [hfile]; rfl⟩, ?_⟩
    · rw [if_neg (by simp [hfile])]
    · intro other hother
      cases hother
      exact hfile
  | none =>
    obtain ⟨directory, hmake, hopen, hsame⟩ := Directory.exists_make? h
    have hbuilds : s.builds + 1 = s.builds + if (s.directory.find? d.key).isNone then 1 else 0 := by
      rw [hfile]
      rfl
    -- a compiler that makes no library leaves the files as they are
    have hunmade : d.library? = none → s.Provided d directory (s.builds + 1) := by
      intro hnone
      refine ⟨hopen, fun k => ?_, hbuilds⟩
      rw [hsame, hnone]
      split
      · rename_i hk
        rw [hk.1, hfile]
      · rfl
    simp only [hmake]
    cases hcompile : d.toolchain.compile d.unit.source with
    | error fault =>
      refine ⟨_, directory, _, rfl, hunmade (by simp [Demand.library?, hcompile, Except.toOption]), ?_⟩
      intro library hlibrary
      cases hlibrary
    | ok made =>
      cases made with
      | none =>
        refine ⟨_, directory, _, rfl, hunmade (by simp [Demand.library?, hcompile, Except.toOption]), ?_⟩
        intro library hlibrary
        cases hlibrary
      | some library =>
        have hlibrary : d.library? = some library := by simp [Demand.library?, hcompile, Except.toOption]
        refine ⟨.ok library, directory.put d.key library, _, rfl, ⟨?_, fun k => ?_, hbuilds⟩, ?_⟩
        · exact Directory.put_ne_blocked hopen d.key library
        · simp only [Directory.find?_put hopen, hsame, hlibrary, hfile, and_true]
        · intro other hother
          cases hother
          rw [Directory.find?_put hopen, if_pos rfl]

/-- What a request can do to a store. -/
inductive Serves (s : Store) (d : Demand) : Except Error Module → Store → Prop
  /-- The module is at hand. -/
  | hand (m : Module) (hm : s.modules.lookup d.key = some m) : Serves s d (.ok m) s
  /-- There is no library, or it cannot be opened. -/
  | refused (hm : s.modules.lookup d.key = none) (directory : Directory) (builds : Nat)
    (files : s.Provided d directory builds) (e : Error) :
    Serves s d (.error e) { s with directory := directory, builds := builds }
  | loaded (hm : s.modules.lookup d.key = none) (directory : Directory) (builds : Nat)
    (files : s.Provided d directory builds) (hfile : (directory.find? d.key).isSome = true) (m : Module) :
    Serves s d (.ok m) { s with
      directory := directory, builds := builds, modules := (d.key, m) :: s.modules, loads := s.loads + 1 }

theorem request_of_some {u : CUnit} {t : Toolchain} (h : s.modules.lookup (key u t) = some m) :
    s.request u t = (.ok m, s) := by
  simp [request, h]

theorem request_of_none {u : CUnit} {t : Toolchain} (h : s.modules.lookup (key u t) = none) :
    s.request u t = s.load (key u t) u t := by
  simp [request, h]

theorem serves (h : s.directory ≠ .blocked) (d : Demand) : s.Serves d (s.answer d).result (s.answer d).after := by
  unfold answer
  cases hm : s.modules.lookup d.key with
  | some m =>
    rw [request_of_some hm]
    exact .hand m hm
  | none =>
    obtain ⟨result, directory, builds, hprovide, hfiles, hresult⟩ := s.provide_cases h d
    rw [request_of_none hm]
    change s.Serves d (s.load d.key d.unit d.toolchain).1 (s.load d.key d.unit d.toolchain).2
    unfold load
    rw [hprovide]
    cases result with
    | error fault => exact .refused hm directory builds hfiles _
    | ok library =>
      have hfile : (directory.find? d.key).isSome = true := by rw [hresult library rfl, Option.isSome_some]
      dsimp only
      split
      · exact .refused hm directory builds hfiles _
      · exact .loaded hm directory builds hfiles hfile _

namespace Serves

variable {result : Except Error Module} {t : Store} (h : s.Serves d result t)

include h

theorem unblocked (hs : s.directory ≠ .blocked) : t.directory ≠ .blocked := by
  cases h with
  | hand m hm => exact hs
  | refused hm directory builds files e => exact files.unblocked
  | loaded hm directory builds files hfile m => exact files.unblocked

theorem builds : t.builds = s.builds + if s.lacks d.key then 1 else 0 := by
  cases h with
  | hand m hm => simp [lacks, hm]
  | refused hm directory builds files e => rw [lacks_of_lookup hm, files.builds]
  | loaded hm directory builds files hfile m => rw [lacks_of_lookup hm, files.builds]

/-- A request writes at most the file of its key, and only where there was none. -/
theorem find? (k : String) :
    t.directory.find? k = if k = d.key ∧ s.lacks d.key = true then d.library? else s.directory.find? k := by
  cases h with
  | hand m hm => simp [lacks, hm]
  | refused hm directory builds files e => simp only [files.find?, lacks_of_lookup hm, Option.isNone_iff_eq_none]
  | loaded hm directory builds files hfile m => simp only [files.find?, lacks_of_lookup hm, Option.isNone_iff_eq_none]

/-- A request adds the module that it gives, unless it was there. -/
theorem modules :
    (∃ m, result = .ok m ∧ s.modules.lookup d.key = some m ∧ t = s) ∨
      s.modules.lookup d.key = none ∧ ((∃ e, result = .error e) ∧ t.modules = s.modules ∨
        ∃ m, result = .ok m ∧ t.modules = (d.key, m) :: s.modules ∧ (t.directory.find? d.key).isSome = true) := by
  cases h with
  | hand m hm => exact .inl ⟨m, rfl, hm, rfl⟩
  | refused hm directory builds files e => exact .inr ⟨hm, .inl ⟨⟨e, rfl⟩, rfl⟩⟩
  | loaded hm directory builds files hfile m => exact .inr ⟨hm, .inr ⟨m, rfl, rfl, hfile⟩⟩

theorem find?_of_some {library : Library} (hk : s.directory.find? k = some library) :
    t.directory.find? k = some library := by
  rw [h.find?, if_neg, hk]
  intro hkey
  rw [← hkey.1, lacks_iff, hk] at hkey
  exact nomatch hkey.2.2

/-- A compiler that fails leaves neither a module nor a file. -/
theorem lacks_of_unmade (hs : s.lacks d.key = true) (hd : d.library? = none) :
    (∃ e, result = .error e) ∧ t.lacks d.key = true := by
  have hfile : t.directory.find? d.key = none := by rw [h.find?, if_pos ⟨rfl, hs⟩, hd]
  obtain ⟨hnone, _⟩ := lacks_iff.mp hs
  rcases h.modules with ⟨m, _, hm, _⟩ | ⟨_, ⟨he, hm⟩ | ⟨m, _, _, hsome⟩⟩
  · rw [hnone] at hm
    contradiction
  · exact ⟨he, lacks_iff.mpr ⟨hm ▸ hnone, hfile⟩⟩
  · rw [hfile] at hsome
    contradiction

/-- A request leaves the other keys alone. -/
theorem lacks_of_ne (hne : k ≠ d.key) : t.lacks k = s.lacks k := by
  have hfile : t.directory.find? k = s.directory.find? k := by
    rw [h.find?, if_neg fun hk => hne hk.1]
  have hmodule : t.modules.lookup k = s.modules.lookup k := by
    rcases h.modules with ⟨_, _, _, rfl⟩ | ⟨_, ⟨_, hm⟩ | ⟨m, _, hm, _⟩⟩
    · rfl
    · rw [hm]
    · rw [hm, List.lookup_cons, beq_false_of_ne hne]
  rw [lacks, lacks, hfile, hmodule]

end Serves

/-- A request asks the compiler exactly when there is neither a module nor a file. -/
theorem consults_iff (h : s.directory ≠ .blocked) : s.Consults d ↔ s.lacks d.key = true := by
  constructor
  · intro hconsults
    obtain ⟨compile, hne⟩ := hconsults
    by_contra hlacks
    apply hne
    have hkey : key d.unit { d.toolchain with compile := compile } = d.key := rfl
    cases hm : s.modules.lookup d.key with
    | some m => rw [request_of_some (hkey ▸ hm), request_of_some hm]
    | none =>
      rw [lacks_of_lookup hm, Option.isNone_iff_eq_none] at hlacks
      obtain ⟨library, hfile⟩ := Option.ne_none_iff_exists'.mp hlacks
      have hprovide (t : Toolchain) : s.provide d.key d.unit t = (.ok library, s) := by simp [provide, hfile]
      rw [request_of_none (hkey ▸ hm), request_of_none hm, hkey]
      change s.load d.key d.unit _ = s.load d.key d.unit d.toolchain
      rw [load, load, hprovide, hprovide]
  · intro hlacks
    obtain ⟨hm, hfile⟩ := lacks_iff.mp hlacks
    obtain ⟨directory, hmake, _⟩ := Directory.exists_make? h
    have hrefuse (text : String) : (s.request d.unit { d.toolchain with compile := fun _ => .error (.refused text) }).1 =
        .error (.build (.refused text)) := by
      have hnone : s.modules.lookup (key d.unit { d.toolchain with compile := fun _ => .error (.refused text) }) = none := hm
      rw [request_of_none hnone]
      change (s.load d.key d.unit _).1 = _
      simp [load, provide, hfile, hmake]
    -- two compilers that refuse in different words cannot both give what the request gives
    by_contra hsame
    have hall : ∀ compile, s.request d.unit { d.toolchain with compile := compile } = s.request d.unit d.toolchain := by
      intro compile
      by_contra hne
      exact hsame ⟨compile, hne⟩
    have hfirst := hrefuse "first"
    have hsecond := hrefuse "second"
    rw [hall] at hfirst hsecond
    rw [hfirst] at hsecond
    simp at hsecond

/-! ### Histories -/

theorem serve_cons (s : Store) (d : Demand) (rest : List Demand) : s.serve (d :: rest) = (s.answer d).after.serve rest :=
  rfl

/-- What every request keeps, a history keeps. -/
theorem serve_keeps {P : Store → Prop} (hstep : ∀ s d, P s → P (s.answer d).after) (hs : P s) (demands : List Demand) :
    P (s.serve demands) := by
  induction demands generalizing s with
  | nil => exact hs
  | cons d rest ih => exact ih (hstep s d hs)

theorem unblocked_serve (h : s.directory ≠ .blocked) (demands : List Demand) : (s.serve demands).directory ≠ .blocked :=
  serve_keeps (P := fun s => s.directory ≠ .blocked) (fun _ d hs => (serves hs d).unblocked hs) h demands

/-- Every answer is the answer to a request after the ones before it. -/
theorem exists_of_mem_answers {a : Answer} (ha : a ∈ s.answers demands) :
    ∃ earlier d later, demands = earlier ++ d :: later ∧ a = (s.serve earlier).answer d := by
  induction demands generalizing s with
  | nil => exact absurd ha List.not_mem_nil
  | cons d rest ih =>
    rcases List.mem_cons.mp ha with rfl | ha
    · exact ⟨[], d, rest, rfl, rfl⟩
    · obtain ⟨earlier, e, later, rfl, rfl⟩ := ih ha
      exact ⟨d :: earlier, e, later, rfl, rfl⟩

/-- A relation of two answers is one of an answer and the history after it. -/
theorem pairwise_answers {R : Answer → Answer → Prop} (h : s.directory ≠ .blocked) (demands : List Demand)
    (hR : ∀ (s : Store) (d e : Demand) (between : List Demand), s.directory ≠ .blocked →
      R (s.answer d) (((s.answer d).after.serve between).answer e)) : (s.answers demands).Pairwise R := by
  induction demands generalizing s with
  | nil => exact .nil
  | cons d rest ih =>
    refine List.pairwise_cons.mpr ⟨fun b hb => ?_, ih ((serves h d).unblocked h)⟩
    obtain ⟨between, e, _, _, rfl⟩ := exists_of_mem_answers hb
    exact hR s d e between h

theorem builds_serve (h : s.directory ≠ .blocked) (demands : List Demand) :
    (s.serve demands).builds = s.builds + (s.answers demands).countP (·.missed) := by
  induction demands generalizing s with
  | nil => rfl
  | cons d rest ih =>
    have hstep : (s.answer d).after.builds = s.builds + if (s.answer d).missed then 1 else 0 := (serves h d).builds
    calc (s.serve (d :: rest)).builds
        = (s.answer d).after.builds + ((s.answer d).after.answers rest).countP (·.missed) :=
          ih ((serves h d).unblocked h)
      _ = s.builds + (s.answers (d :: rest)).countP (·.missed) := by
        rw [hstep, answers, List.countP_cons]
        omega

theorem lookup_serve (hm : s.modules.lookup k = some m) (demands : List Demand) :
    (s.serve demands).modules.lookup k = some m :=
  serve_keeps (P := fun s => s.modules.lookup k = some m) (fun _ _ hs => lookup_request hs) hm demands

section

variable (h : s.directory ≠ .blocked)

include h

theorem find?_serve {library : Library} (hk : s.directory.find? k = some library) (demands : List Demand) :
    (s.serve demands).directory.find? k = some library := by
  have hboth := serve_keeps (P := fun s => s.directory ≠ .blocked ∧ s.directory.find? k = some library)
    (fun _ d hs => ⟨(serves hs.1 d).unblocked hs.1, (serves hs.1 d).find?_of_some hs.2⟩) ⟨h, hk⟩ demands
  exact hboth.2

theorem lacks_serve (hk : s.lacks k = true) (hother : ∀ d ∈ demands, d.key ≠ k) : (s.serve demands).lacks k = true := by
  induction demands generalizing s with
  | nil => exact hk
  | cons d rest ih =>
    have hstep := (serves h d).lacks_of_ne (hother d List.mem_cons_self).symm
    apply ih ((serves h d).unblocked h)
    · rw [hstep, hk]
    · intro e he
      exact hother e (List.mem_cons_of_mem d he)

/-- The modules at hand are those that were given, one for each key. -/
theorem keys_serve (demands : List Demand) (hnodup : (s.modules.map (·.1)).Nodup) :
    ((s.serve demands).modules.map (·.1)).Nodup ∧ ∀ k, k ∈ (s.serve demands).modules.map (·.1) ↔
      k ∈ s.modules.map (·.1) ∨ ∃ a ∈ s.answers demands, a.result.isOk = true ∧ a.key = k := by
  induction demands generalizing s with
  | nil => exact ⟨hnodup, fun k => by simp [serve, answers]⟩
  | cons d rest ih =>
    have hkey : (s.answer d).key = d.key := rfl
    have hstep : ((s.answer d).after.modules.map (·.1)).Nodup ∧ ∀ k, k ∈ (s.answer d).after.modules.map (·.1) ↔
        k ∈ s.modules.map (·.1) ∨ (s.answer d).result.isOk = true ∧ d.key = k := by
      rcases (serves h d).modules with ⟨m, hm, hhand, hsame⟩ | ⟨hnone, ⟨⟨e, he⟩, hsame⟩ | ⟨m, hm, hcons, _⟩⟩
      · have hmem : d.key ∈ s.modules.map (·.1) := by
          obtain ⟨l₁, l₂, hsplit, _⟩ := List.lookup_eq_some_iff.mp hhand
          simp [hsplit]
        rw [hsame, hm]
        refine ⟨hnodup, fun k => ⟨.inl, fun hk => hk.elim id fun hk => hk.2 ▸ hmem⟩⟩
      · rw [hsame, he]
        exact ⟨hnodup, fun k => ⟨.inl, fun hk => hk.elim id fun hk => nomatch hk.1⟩⟩
      · have hnew : d.key ∉ s.modules.map (·.1) := by
          intro hmem
          obtain ⟨⟨_, x⟩, hx, rfl⟩ := List.mem_map.mp hmem
          simpa using List.lookup_eq_none_iff.mp hnone _ hx
        rw [hcons, hm, List.map_cons]
        refine ⟨List.nodup_cons.mpr ⟨hnew, hnodup⟩, fun k => ?_⟩
        rw [List.mem_cons, or_comm]
        exact or_congr_right ⟨fun hk => ⟨rfl, hk.symm⟩, fun hk => hk.2.symm⟩
    obtain ⟨hrest, hmem⟩ := ih ((serves h d).unblocked h) hstep.1
    refine ⟨hrest, fun k => ?_⟩
    rw [serve_cons, hmem, hstep.2, answers, or_assoc]
    simp only [List.mem_cons, exists_eq_or_imp, hkey]

/-- At most one answer for a key made a library. -/
theorem made_once (demands : List Demand) :
    (s.answers demands).Pairwise fun a b => a.key = b.key → a.made?.isSome = true → b.made? = none := by
  apply pairwise_answers h
  intro s d e between hs hkey hmade
  obtain ⟨library, hlibrary⟩ := Option.isSome_iff_exists.mp hmade
  have hmissed : s.lacks d.key = true ∧ d.library? = some library := by
    rwa [made?_answer, Option.ite_none_right_eq_some] at hlibrary
  have hfile : (s.answer d).after.directory.find? d.key = some library := by
    rw [(serves hs d).find?, if_pos ⟨rfl, hmissed.1⟩, hmissed.2]
  have hlater := find?_serve ((serves hs d).unblocked hs) hfile between
  have hpresent : ((s.answer d).after.serve between).lacks e.key = false := by
    have hkeys : e.key = d.key := hkey.symm
    simp [lacks, hkeys, hlater]
  rw [made?_answer, hpresent, if_neg Bool.false_ne_true]

/-- A module that was given for a key is given from then on, and the store stays as it is. -/
theorem given_again (demands : List Demand) :
    (s.answers demands).Pairwise fun a b => ∀ m, a.result = .ok m → b.key = a.key →
      b.result = .ok m ∧ b.missed = false ∧ b.after = b.before := by
  apply pairwise_answers h
  intro s d e between hs m hm hkey
  have hhand : (s.answer d).after.modules.lookup d.key = some m := lookup_of_request hm
  have hlater : ((s.answer d).after.serve between).modules.lookup e.key = some m := by
    rw [show e.key = d.key from hkey]
    exact lookup_serve hhand between
  have hrequest := request_of_some hlater
  refine ⟨?_, ?_, ?_⟩
  · exact congrArg Prod.fst hrequest
  · rw [missed_answer, lacks, hlater, Option.isNone_some, Bool.false_and]
  · exact congrArg Prod.snd hrequest

/-- The number of modules at hand is the number of keys that some request succeeded for. -/
theorem size_serve (hs : s.modules = []) (demands : List Demand) :
    (s.serve demands).size = (((s.answers demands).filter (·.result.isOk)).map (·.key)).eraseDups.length := by
  obtain ⟨hnodup, hmem⟩ := keys_serve h demands (by rw [hs]; exact List.nodup_nil)
  have hperm : ((s.serve demands).modules.map (·.1)).Perm
      (((s.answers demands).filter (·.result.isOk)).map (·.key)).eraseDups := by
    refine (List.perm_ext_iff_of_nodup hnodup (nodup_eraseDups _)).mpr fun k => ?_
    rw [hmem, hs]
    simp [List.mem_eraseDups, and_assoc]
  rw [size, ← List.length_map, hperm.length_eq]

end

/-- A unit, and a compiler that works or refuses. -/
def retried (works : Bool) : Demand where
  unit := ⟨"a", [], []⟩
  toolchain := ⟨"cc", "cc", fun _ =>
    if works then .ok (some (.code ⟨some 1, some 0, some (.status 0)⟩)) else .error (.refused "busy")⟩

end Store

end VisionGraph
