import Mathlib.Data.List.Perm.Basic
import Mathlib.Logic.Relation

/-!
# Manifests and the local registry

`mlogpkg/src/main.rs`: a manifest with its dependency map, and the registry, a directory for each package. A
dependency map is a hash map; it is the list of its entries in the order in which it is iterated, and another
order is another list of the same entries (`Manifest.Reorders`, `Registry.Reorders`). What a resolution or a
check can come upon are the dependencies `Reached` from the root.
-/
namespace Metalogos.Package

open Relation

/-- mirrors mlogpkg/src/main.rs:108-131 -/
inductive DependencySpec where
  | bare (version : String)
  | pinned (version digest : String)
  deriving DecidableEq, Repr

def DependencySpec.version : DependencySpec → String
  | .bare version => version
  | .pinned version _ => version

def DependencySpec.digest : DependencySpec → Option String
  | .bare _ => none
  | .pinned _ digest => some digest

/-- A name with what is required of it. -/
abbrev Dependency := String × DependencySpec

/-- The package's name and version, its dependencies, and the key that `[registry]` pins.
mirrors mlogpkg/src/main.rs:136-177 -/
structure Manifest where
  name : String
  version : String
  dependencies : List Dependency
  verifyKey : Option String
  distinct : (dependencies.map (·.1)).Nodup

/-- The file `mlog.toml`. -/
inductive ManifestFile where
  | missing
  | unreadable
  | parsed (m : Manifest)

def ManifestFile.read : ManifestFile → Option Manifest
  | .parsed m => some m
  | _ => none

/-- A package's directory: its manifest, the files of the package in the order of their paths, and the stored
package document if there is one. A file that cannot be read has the text of the error. -/
structure PackageDir where
  manifest : ManifestFile
  files : List (String × Except String (List UInt8))
  document : Option (Except String String)

/-- `dir n` is what `registry.join(n)` leads to. The manifests of a finite registry name finitely many packages. -/
structure Registry where
  dir : String → Option PackageDir
  names : List String
  mentioned : ∀ n d m, dir n = some d → d.manifest = .parsed m → ∀ dep ∈ m.dependencies, dep.1 ∈ names

/-- `read_manifest_optional` in the package's directory.
mirrors mlogpkg/src/main.rs:1119-1122 -/
def Registry.manifest? (r : Registry) (n : String) : Option Manifest := (r.dir n).bind (·.manifest.read)

theorem ManifestFile.read_eq_some {f : ManifestFile} {m : Manifest} : f.read = some m ↔ f = .parsed m := by
  cases f <;> simp [ManifestFile.read]

theorem manifest?_eq_some {r : Registry} {n : String} {m : Manifest} :
    r.manifest? n = some m ↔ ∃ d, r.dir n = some d ∧ d.manifest = .parsed m := by
  simp only [Registry.manifest?, Option.bind_eq_some_iff, ManifestFile.read_eq_some]

/-! ## Dependencies -/

def Registry.deps (r : Registry) (n : String) : List Dependency :=
  match r.manifest? n with
  | none => []
  | some m => m.dependencies

theorem deps_of_manifest {r : Registry} {n : String} {m : Manifest} (hm : r.manifest? n = some m) :
    r.deps n = m.dependencies := by
  rw [Registry.deps, hm]

theorem mem_deps {r : Registry} {n : String} {m : Manifest} {dep : Dependency} (hm : r.manifest? n = some m)
    (h : dep ∈ m.dependencies) : dep ∈ r.deps n := by
  rwa [deps_of_manifest hm]

/-- Package `x` depends on package `y`. -/
def Registry.Needs (r : Registry) (x y : String) : Prop := ∃ spec, (y, spec) ∈ r.deps x

/-- The dependencies of the root, and those of the packages they lead to. -/
inductive Reached (r : Registry) (root : Manifest) : Dependency → Prop
  | root {dep : Dependency} (h : dep ∈ root.dependencies) : Reached r root dep
  | step {dep dep' : Dependency} (h : Reached r root dep) (hd : dep' ∈ r.deps dep.1) : Reached r root dep'

/-! ## Orders of iteration -/

/-- The same manifest, iterated in another order. -/
structure Manifest.Reorders (m m' : Manifest) : Prop where
  name : m'.name = m.name
  version : m'.version = m.version
  verifyKey : m'.verifyKey = m.verifyKey
  dependencies : m.dependencies.Perm m'.dependencies

inductive ManifestFile.Reorders : ManifestFile → ManifestFile → Prop
  | missing : Reorders .missing .missing
  | unreadable : Reorders .unreadable .unreadable
  | parsed {m m' : Manifest} (h : m.Reorders m') : Reorders (.parsed m) (.parsed m')

/-- The same directory. -/
structure PackageDir.Reorders (d d' : PackageDir) : Prop where
  manifest : d.manifest.Reorders d'.manifest
  files : d'.files = d.files
  document : d'.document = d.document

/-- The same registry, its dependency maps iterated in other orders. -/
def Registry.Reorders (r r' : Registry) : Prop := ∀ n, Option.Rel PackageDir.Reorders (r.dir n) (r'.dir n)

theorem Manifest.Reorders.refl (m : Manifest) : m.Reorders m := ⟨rfl, rfl, rfl, .refl _⟩

theorem Manifest.Reorders.symm {m m' : Manifest} (h : m.Reorders m') : m'.Reorders m :=
  ⟨h.name.symm, h.version.symm, h.verifyKey.symm, h.dependencies.symm⟩

theorem ManifestFile.Reorders.symm {f f' : ManifestFile} (h : f.Reorders f') : f'.Reorders f := by
  cases h with
  | missing => exact .missing
  | unreadable => exact .unreadable
  | parsed h => exact .parsed h.symm

theorem PackageDir.Reorders.symm {d d' : PackageDir} (h : d.Reorders d') : d'.Reorders d :=
  ⟨h.manifest.symm, h.files.symm, h.document.symm⟩

theorem Registry.Reorders.symm {r r' : Registry} (h : r.Reorders r') : r'.Reorders r := by
  intro n
  have hn := h n
  generalize r.dir n = d, r'.dir n = d' at hn
  cases hn with
  | none => exact .none
  | some hn => exact .some hn.symm

theorem Registry.Reorders.refl (r : Registry) : r.Reorders r := by
  intro n
  cases r.dir n with
  | none => exact .none
  | some d =>
    refine .some ⟨?_, rfl, rfl⟩
    cases d.manifest with
    | missing => exact .missing
    | unreadable => exact .unreadable
    | parsed m => exact .parsed (.refl m)

theorem ManifestFile.Reorders.read {f f' : ManifestFile} (h : f.Reorders f') :
    Option.Rel Manifest.Reorders f.read f'.read := by
  cases h with
  | missing => exact .none
  | unreadable => exact .none
  | parsed h => exact .some h

theorem Registry.Reorders.manifest? {r r' : Registry} (h : r.Reorders r') (n : String) :
    Option.Rel Manifest.Reorders (r.manifest? n) (r'.manifest? n) := by
  have hn := h n
  unfold Registry.manifest?
  generalize r.dir n = d, r'.dir n = d' at hn
  cases hn with
  | none => exact .none
  | some hn => exact hn.manifest.read

theorem Registry.Reorders.mem_deps {r r' : Registry} (h : r.Reorders r') {n : String} {dep : Dependency} :
    dep ∈ r.deps n ↔ dep ∈ r'.deps n := by
  have hn := h.manifest? n
  unfold Registry.deps
  generalize r.manifest? n = m, r'.manifest? n = m' at hn
  cases hn with
  | none => rfl
  | some hn => exact hn.dependencies.mem_iff

theorem Registry.Reorders.reached {r r' : Registry} {root root' : Manifest} (h : r.Reorders r')
    (hroot : root.Reorders root') {dep : Dependency} : Reached r root dep ↔ Reached r' root' dep := by
  constructor
  · intro hd
    induction hd with
    | root hd => exact .root (hroot.dependencies.mem_iff.1 hd)
    | step _ hd ih => exact .step ih (h.mem_deps.1 hd)
  · intro hd
    induction hd with
    | root hd => exact .root (hroot.dependencies.mem_iff.2 hd)
    | step _ hd ih => exact .step ih (h.mem_deps.2 hd)

theorem Registry.Reorders.needs {r r' : Registry} (h : r.Reorders r') : r.Needs = r'.Needs := by
  funext x y
  exact propext (exists_congr fun _ => h.mem_deps)

end Metalogos.Package
