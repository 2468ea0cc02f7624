import MacroSweep.Proofs.Loading
import MacroSweep.Walk.File

/-! The two readings of an include directive: the loader takes the first file that exists along the
include paths, the walk takes a dependency by the end of its path. -/
namespace MacroSweep.Walk

open Source Text

variable {dependencies : List Dependency} {p q source : Path} {target : String} {d : Dependency}

/-- The place beside the including file that a quoted include names. -/
def besidePath (source : Path) (target : String) : Path :=
  (source.directory.join ⟨target⟩).normalize

/-- Among the dependencies whose paths end in a name, the one with the given path comes first. -/
def IsFirstEnding (dependencies : List Dependency) (target : String) (p : Path) : Prop :=
  p.endsWith ⟨target⟩ = true ∧
    ∀ d ∈ dependencies, d.path.endsWith ⟨target⟩ = true → d.path = p ∨ compare p d.path = .lt

/-- Paths as a loaded unit has them: in normal spelling and in ascending order. -/
structure Canonical (dependencies : List Dependency) : Prop where
  normal : ∀ d ∈ dependencies, d.path.IsNormal
  ordered : dependencies.Pairwise fun d e => compare d.path e.path = .lt

theorem canonical_of_load {tree : FileTree} {includePaths : List Path} {file : Path}
    {unit : SourceUnit} (h : SourceUnit.load tree includePaths file = .ok unit) :
    Canonical unit.dependencies :=
  have hu := SourceUnit.loadedFrom_of_load h
  ⟨fun d hd => (hu.dependencies d hd).1, hu.ordered⟩

/-- A path in normal spelling is found under its own text or not at all. -/
theorem find?_same_eq (hc : Canonical dependencies) (hq : q.IsNormal) :
    (dependencies.find? (·.path.same q)).map (·.path) =
      if q ∈ dependencies.map (·.path) then some q else none := by
  split
  · next hm =>
    obtain ⟨d, hd, rfl⟩ := List.mem_map.mp hm
    have hsome : (dependencies.find? (·.path.same d.path)).isSome := by
      rw [List.find?_isSome]
      exact ⟨d, hd, Path.same_iff.mpr rfl⟩
    obtain ⟨e, he⟩ := Option.isSome_iff_exists.mp hsome
    have hsame : e.path.same d.path = true := by simpa using List.find?_some he
    have hnormal := hc.normal e (List.mem_of_find?_eq_some he)
    simp [he, hnormal.eq_of_same hq hsame]
  · next hm =>
    rw [Option.map_eq_none_iff, List.find?_eq_none]
    intro d hd hsame
    have heq : d.path = q := (hc.normal d hd).eq_of_same hq hsame
    exact hm (heq ▸ List.mem_map_of_mem hd)

/-- In ascending order, the first that ends in a name is the one below all others that do. -/
theorem find?_endsWith_eq_some_iff (target : String) (hc : Canonical dependencies)
    (hp : p ∈ dependencies.map (·.path)) :
    (dependencies.find? (·.path.endsWith ⟨target⟩)).map (·.path) = some p ↔
      IsFirstEnding dependencies target p := by
  constructor
  · intro h
    obtain ⟨d, hd, rfl⟩ := Option.map_eq_some_iff.mp h
    obtain ⟨hend, before, after, rfl, hbefore⟩ := List.find?_eq_some_iff_append.mp hd
    refine ⟨hend, ?_⟩
    intro e he hende
    rcases List.mem_append.mp he with he | he
    · have := hbefore e he
      simp [hende] at this
    · rcases List.mem_cons.mp he with rfl | he
      · exact .inl rfl
      · have hafter := (List.pairwise_append.mp hc.ordered).2.1
        exact .inr (List.rel_of_pairwise_cons hafter he)
  · rintro ⟨hend, hleast⟩
    obtain ⟨d, hd, rfl⟩ := List.mem_map.mp hp
    have hsome : (dependencies.find? (·.path.endsWith ⟨target⟩)).isSome := by
      rw [List.find?_isSome]
      exact ⟨d, hd, hend⟩
    obtain ⟨e, he⟩ := Option.isSome_iff_exists.mp hsome
    obtain ⟨hende, before, after, hsplit, hbefore⟩ := List.find?_eq_some_iff_append.mp he
    rw [he, Option.map_some, Option.some.injEq]
    rcases hleast e (List.mem_of_find?_eq_some he) hende with heq | hlt
    · exact heq
    · -- `e` comes first in the list, so it is not above `d`
      rw [hsplit] at hd
      have hordered := hc.ordered
      rw [hsplit] at hordered
      rcases List.mem_append.mp hd with hd | hd
      · have := hbefore d hd
        simp [hend] at this
      · rcases List.mem_cons.mp hd with rfl | hd
        · rfl
        · have hgt := List.rel_of_pairwise_cons (List.pairwise_append.mp hordered).2.1 hd
          rw [Std.OrientedCmp.gt_of_lt hgt] at hlt
          cases hlt

theorem resolve?_eq {e : Directive} {system : Bool}
    (ht : includeTarget? e.rest = some (target, system)) :
    resolve? dependencies source e =
      (if system = true then none
        else (dependencies.find? (·.path.same (besidePath source target))).map (·.path)).or
      ((dependencies.find? (·.path.endsWith ⟨target⟩)).map (·.path)) := by
  simp only [resolve?, ht, besidePath, Option.bind_eq_bind, Option.bind_some]
  generalize dependencies.find? (·.path.endsWith ⟨target⟩) = ending
  generalize dependencies.find? (·.path.same (source.directory.join ⟨target⟩).normalize) = sibling
  cases system <;> cases sibling <;> cases ending <;> rfl

/-- The walk follows an include directive to the file that the loader found for it if and only if
that file stands beside the including one, or none does and the file comes first among the
dependencies whose paths end in the name. A quoted include that the loader finds beside the
including file is always followed there. -/
theorem walk_resolve?_eq_some_iff {tree : FileTree} {includePaths : List Path} {file : Path}
    {unit : SourceUnit} {e : Directive} {system : Bool}
    (hu : SourceUnit.load tree includePaths file = .ok unit)
    (ht : includeTarget? e.rest = some (target, system))
    (hr : SourceUnit.resolve? tree includePaths ⟨source, ⟨e.line, target, system⟩⟩ = some p)
    (hp : p ∈ unit.dependencies.map (·.path)) :
    (resolve? unit.dependencies source e = some p ↔
      (system = false ∧ besidePath source target = p) ∨
        ((system = true ∨ besidePath source target ∉ unit.dependencies.map (·.path)) ∧
          IsFirstEnding unit.dependencies target p)) ∧
      (system = false → tree.isFile (source.directory.join ⟨target⟩) = true →
        resolve? unit.dependencies source e = some p) := by
  have hc := canonical_of_load hu
  have hends := find?_endsWith_eq_some_iff target hc hp
  have hiff : resolve? unit.dependencies source e = some p ↔
      (system = false ∧ besidePath source target = p) ∨
        ((system = true ∨ besidePath source target ∉ unit.dependencies.map (·.path)) ∧
          IsFirstEnding unit.dependencies target p) := by
    have hbeside : (besidePath source target).IsNormal := Path.isNormal_normalize _
    rw [resolve?_eq ht, find?_same_eq hc hbeside]
    cases system with
    | true => simpa using hends
    | false =>
      by_cases hm : besidePath source target ∈ unit.dependencies.map (·.path)
      · simp [hm]
      · have hne : besidePath source target ≠ p := fun he => hm (he ▸ hp)
        simpa [hm, hne] using hends
  refine ⟨hiff, ?_⟩
  intro hsys hfile
  apply hiff.mpr
  refine .inl ⟨hsys, ?_⟩
  subst hsys
  simpa [SourceUnit.resolve?, SourceUnit.searchDirectories, hfile, besidePath] using hr

/-- The text of a file that includes two headers of one name, the first with its directory. -/
def twoHeadersText : List UInt8 := encode "#include \"a/x.h\"\n#include <x.h>\n".toList

def twoHeaders : FileTree where
  nodes := .ofList [(["m.c"], .file twoHeadersText), (["a"], .directory), (["a", "x.h"], .file []),
    (["b"], .directory), (["b", "x.h"], .file [])]

/-- The unit of that file where headers are looked for in `b`. -/
def twoHeadersUnit : SourceUnit where
  path := ⟨"m.c"⟩
  fingerprint := Digest.fingerprint twoHeadersText
  dependencies := [⟨⟨"a/x.h"⟩, Digest.fingerprint []⟩, ⟨⟨"b/x.h"⟩, Digest.fingerprint []⟩]
  conditionals := ∅

/-- What the file mentions, and what is known of the unit before any header is read. -/
def twoHeadersMentions : Mentions := ⟨∅, ∅, [⟨1, "a/x.h", false⟩, ⟨2, "x.h", true⟩]⟩

def twoHeadersClosure : SourceUnit.Closure := SourceUnit.Closure.mention {} twoHeadersMentions

theorem mentionsOf_nil : SourceUnit.mentionsOf [] = ⟨∅, ∅, []⟩ := by decide +kernel

theorem follow_twoHeaders :
    SourceUnit.follow twoHeaders [⟨"b"⟩] ⟨"m.c"⟩ (twoHeadersMentions.includes.map (⟨⟨"m.c"⟩, ·⟩))
        twoHeadersClosure =
      (twoHeadersClosure.add ⟨"a/x.h"⟩ []).add ⟨"b/x.h"⟩ [] := by
  have hempty : (SourceUnit.mentionsOf []).includes = [] :=
    congrArg Mentions.includes mentionsOf_nil
  have ha : SourceUnit.nextFile? twoHeaders [⟨"b"⟩] ⟨"m.c"⟩ twoHeadersClosure
      ⟨⟨"m.c"⟩, ⟨1, "a/x.h", false⟩⟩ = some (⟨"a/x.h"⟩, []) := by decide +kernel
  have hb : SourceUnit.nextFile? twoHeaders [⟨"b"⟩] ⟨"m.c"⟩ (twoHeadersClosure.add ⟨"a/x.h"⟩ [])
      ⟨⟨"m.c"⟩, ⟨2, "x.h", true⟩⟩ = some (⟨"b/x.h"⟩, []) := by decide +kernel
  rw [twoHeadersMentions, List.map_cons, List.map_singleton, SourceUnit.follow_cons_of_some ha,
    hempty, List.map_nil, List.append_nil, SourceUnit.follow_cons_of_some hb, hempty, List.map_nil,
    List.append_nil, SourceUnit.follow]

theorem load_twoHeaders : SourceUnit.load twoHeaders [⟨"b"⟩] ⟨"m.c"⟩ = .ok twoHeadersUnit := by
  have hread : twoHeaders.read ⟨"m.c"⟩ = .ok twoHeadersText := rfl
  have hmentions : SourceUnit.mentionsOf twoHeadersText = twoHeadersMentions := by decide +kernel
  have hnormal : (⟨"m.c"⟩ : Path).normalize = ⟨"m.c"⟩ := by decide +kernel
  have hfollow := follow_twoHeaders
  rw [twoHeadersClosure] at hfollow
  simp only [SourceUnit.load, hread, hmentions, hnormal, hfollow, SourceUnit.Closure.add,
    mentionsOf_nil]
  rfl

/-- The header that is included with its directory is followed to the file the loader found. -/
theorem walk_resolve?_of_quoted_header :
    SourceUnit.resolve? twoHeaders [⟨"b"⟩] ⟨⟨"m.c"⟩, ⟨1, "a/x.h", false⟩⟩ = some ⟨"a/x.h"⟩ ∧
      resolve? twoHeadersUnit.dependencies ⟨"m.c"⟩ ⟨1, "include", "\"a/x.h\"".toList⟩ =
        some ⟨"a/x.h"⟩ := by
  have hr : SourceUnit.resolve? twoHeaders [⟨"b"⟩] ⟨⟨"m.c"⟩, ⟨1, "a/x.h", false⟩⟩ =
      some ⟨"a/x.h"⟩ := by decide +kernel
  have hp : (⟨"a/x.h"⟩ : Path) ∈ twoHeadersUnit.dependencies.map (·.path) := by
    simp [twoHeadersUnit]
  have hfile : twoHeaders.isFile ((⟨"m.c"⟩ : Path).directory.join ⟨"a/x.h"⟩) = true := by
    decide +kernel
  exact ⟨hr, (walk_resolve?_eq_some_iff (e := ⟨1, "include", "\"a/x.h\"".toList⟩) load_twoHeaders
    (by decide +kernel) hr hp).2 rfl hfile⟩

/-- The other header is among the dependencies, and the loader finds it for the second directive of
the file; the walk takes the first header for it. -/
theorem walk_resolve?_ne_of_second_header :
    ⟨2, "include", "<x.h>".toList⟩ ∈ directives (sourceLines (decodeLossy twoHeadersText)) ∧
      SourceUnit.load twoHeaders [⟨"b"⟩] ⟨"m.c"⟩ = .ok twoHeadersUnit ∧
      SourceUnit.resolve? twoHeaders [⟨"b"⟩] ⟨⟨"m.c"⟩, ⟨2, "x.h", true⟩⟩ = some ⟨"b/x.h"⟩ ∧
      ⟨"b/x.h"⟩ ∈ twoHeadersUnit.dependencies.map (·.path) ∧
      resolve? twoHeadersUnit.dependencies ⟨"m.c"⟩ ⟨2, "include", "<x.h>".toList⟩ =
        some ⟨"a/x.h"⟩ := by
  refine ⟨by decide +kernel, load_twoHeaders, by decide +kernel, by simp [twoHeadersUnit], ?_⟩
  rfl

end MacroSweep.Walk
