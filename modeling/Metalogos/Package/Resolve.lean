import Metalogos.Lib.DependencyOrder
import Metalogos.Lib.Dict
import Metalogos.Lib.Fallible
import Metalogos.Package.Manifest
import Mathlib.Data.List.Sort
import Mathlib.Data.List.Perm.Subperm

/-!
# Dependency resolution

`resolve_graph` of `mlogpkg/src/main.rs`, a depth-first walk from the root: a package enters the result when
all its dependencies have, and the names under way are the stack. The walk has a budget of nested calls, and
the names that the registry mentions are enough of one (`resolve_within_budget`).

`resolve_exact`: the walk succeeds exactly when every dependency it can come upon is there in the version
required and none is on a cycle; then the result has the packages it can come upon, and the lockfile is the
same in every order of iteration.
-/
namespace Metalogos.Package

open Metalogos.Lib
open Relation

/-! ## The walk -/

/-- mirrors mlogpkg/src/main.rs:287-293 -/
structure ResolvedPkg where
  version : String
  source : String
  requiredBy : List String
  deriving DecidableEq, Repr

/-- mirrors mlogpkg/src/main.rs:303-316 -/
inductive ResolveError where
  | packageNotFound (name requiredBy : String)
  | versionConflict (name existingVersion existingRequiredBy newVersion newRequiredBy : String)
  | cycle (chain : List String)
  deriving DecidableEq, Repr

/-- Why a walk stops before its end: it has no budget left, or it refuses. -/
inductive Stop where
  | budget
  | refused (e : ResolveError)
  deriving DecidableEq, Repr

/-- The names under way are `stack`, the latest last.
mirrors mlogpkg/src/main.rs:373-472 -/
def resolveRecursive (r : Registry) : Nat → List String → String → Dict String ResolvedPkg → Dependency →
    Except Stop (Dict String ResolvedPkg)
  | 0, _, _, _, _ => .error .budget
  | fuel + 1, stack, requiredBy, resolved, (name, spec) =>
    if name ∈ stack then .error (.refused (.cycle (stack.dropWhile (· ≠ name) ++ [name])))
    else
      match resolved.get name with
      | some existing =>
        if existing.version ≠ spec.version then
          .error (.refused (.versionConflict name existing.version (existing.requiredBy.head?.getD "")
            spec.version requiredBy))
        else .ok (resolved.modify name fun p => { p with requiredBy := p.requiredBy ++ [requiredBy] })
      | none =>
        match r.manifest? name with
        | none => .error (.refused (.packageNotFound name requiredBy))
        | some m =>
          if m.version ≠ spec.version then
            .error (.refused (.versionConflict name m.version ("(registry:" ++ name ++ ")") spec.version requiredBy))
          else do
            let resolved ← m.dependencies.foldlM (resolveRecursive r fuel (stack ++ [name]) name) resolved
            .ok (resolved.set name ⟨spec.version, "registry", [requiredBy]⟩)

/-- mirrors mlogpkg/src/main.rs:351-371 -/
def resolveGraph (r : Registry) (root : Manifest) : Except Stop (Dict String ResolvedPkg) :=
  root.dependencies.foldlM (resolveRecursive r (r.names.length + 2) [] root.name) .empty

/-! ## The lockfile -/

/-- mirrors mlogpkg/src/main.rs:230-235 -/
structure LockedPkg where
  name : String
  version : String
  source : String
  deriving DecidableEq, Repr

/-- mirrors mlogpkg/src/main.rs:218-228 -/
structure LockFile where
  version : Nat
  package : List LockedPkg
  deriving DecidableEq, Repr

/-- The entries in the order of their names, as a `BTreeMap` has them. -/
def byName (resolved : Dict String ResolvedPkg) : List (String × ResolvedPkg) :=
  resolved.pairs.insertionSort fun a b => a.1 ≤ b.1

def LockedPkg.Le (a b : LockedPkg) : Prop := a.name ≤ b.name

instance : DecidableRel LockedPkg.Le := fun a b => inferInstanceAs (Decidable (a.name ≤ b.name))

instance : Std.Total LockedPkg.Le := ⟨fun a b => String.le_total a.name b.name⟩

instance : IsTrans LockedPkg LockedPkg.Le := ⟨fun _ _ _ => String.le_trans⟩

def locked (p : String × ResolvedPkg) : LockedPkg := ⟨p.1, p.2.version, p.2.source⟩

/-- mirrors mlogpkg/src/main.rs:245-258 -/
def fromResolved (resolved : Dict String ResolvedPkg) : LockFile :=
  ⟨1, ((byName resolved).map locked).insertionSort LockedPkg.Le⟩

/-! ## What it is to resolve -/

/-- The package is there in the version required. -/
def Good (r : Registry) (dep : Dependency) : Prop := ∃ m, r.manifest? dep.1 = some m ∧ m.version = dep.2.version

structure Resolvable (r : Registry) (root : Manifest) : Prop where
  good : ∀ dep, Reached r root dep → Good r dep
  acyclic : ∀ dep, Reached r root dep → ¬ TransGen r.Needs dep.1 dep.1

variable {r : Registry} {root : Manifest}

/-- What the walk has built. -/
structure Built (r : Registry) (root : Manifest) (resolved : Dict String ResolvedPkg) : Prop where
  order : Settled r.Needs resolved.keys.reverse
  nodup : resolved.keys.Nodup
  entry : ∀ n pkg, resolved.get n = some pkg →
    (∃ m, r.manifest? n = some m ∧ m.version = pkg.version) ∧ pkg.source = "registry"
  edges : ∀ n ∈ resolved.keys, ∀ dep ∈ r.deps n, Good r dep
  reached : ∀ n ∈ resolved.keys, ∃ dep, Reached r root dep ∧ dep.1 = n

/-- Nothing under way is resolved. -/
def Apart (stack : List String) (resolved : Dict String ResolvedPkg) : Prop := ∀ n ∈ stack, n ∉ resolved.keys

theorem built_empty : Built r root .empty := by
  constructor
  · trivial
  · exact List.nodup_nil
  · exact fun _ _ h => nomatch h
  · exact fun _ h => nomatch h
  · exact fun _ h => nomatch h

theorem get_none_of_not_mem {resolved : Dict String ResolvedPkg} {n : String} (h : n ∉ resolved.keys) :
    resolved.get n = none := by
  by_contra hne
  obtain ⟨v, hv⟩ := Option.ne_none_iff_exists'.1 hne
  exact h ((resolved.mem_keys n).2 ⟨v, hv⟩)

theorem Apart.push {stack : List String} {resolved : Dict String ResolvedPkg} {n : String}
    (h : Apart stack resolved) (hn : resolved.get n = none) : Apart (stack ++ [n]) resolved := by
  intro k hk hmem
  rcases List.mem_append.1 hk with hk | hk
  · exact h k hk hmem
  · obtain rfl := List.mem_singleton.1 hk
    obtain ⟨v, hv⟩ := (resolved.mem_keys k).1 hmem
    rw [hn] at hv
    cases hv

theorem Built.again {resolved : Dict String ResolvedPkg} {name requiredBy : String} (h : Built r root resolved) :
    Built r root (resolved.modify name fun p => { p with requiredBy := p.requiredBy ++ [requiredBy] }) := by
  have hkeys := resolved.keys_modify name fun p => { p with requiredBy := p.requiredBy ++ [requiredBy] }
  refine ⟨hkeys ▸ h.order, hkeys ▸ h.nodup, fun n pkg hn => ?_, hkeys ▸ h.edges, hkeys ▸ h.reached⟩
  rw [Dict.get_modify] at hn
  split at hn
  · obtain ⟨p, hp, rfl⟩ := Option.map_eq_some_iff.1 hn
    exact h.entry n p hp
  · exact h.entry n pkg hn

/-- A package whose dependencies are all resolved is. -/
theorem Built.add {resolved : Dict String ResolvedPkg} {name requiredBy : String} {spec : DependencySpec}
    {m : Manifest} (h : Built r root resolved) (hm : r.manifest? name = some m) (hv : m.version = spec.version)
    (hnew : name ∉ resolved.keys) (hreached : Reached r root (name, spec))
    (hdeps : ∀ dep ∈ m.dependencies, Good r dep ∧ dep.1 ∈ resolved.keys) :
    Built r root (resolved.set name ⟨spec.version, "registry", [requiredBy]⟩) := by
  have hkeys := Dict.keys_set_fresh (v := (⟨spec.version, "registry", [requiredBy]⟩ : ResolvedPkg))
    (get_none_of_not_mem hnew)
  have hown := deps_of_manifest hm
  constructor
  · rw [hkeys, List.reverse_append]
    refine ⟨?_, h.order⟩
    rintro y ⟨s, hs⟩
    exact List.mem_reverse.2 (hdeps (y, s) (hown ▸ hs)).2
  · exact resolved.nodup_keys_set name _ h.nodup
  · intro n pkg hn
    rw [Dict.get_set] at hn
    split at hn
    · rename_i hname
      cases hn
      exact ⟨⟨m, hname ▸ hm, hv⟩, rfl⟩
    · exact h.entry n pkg hn
  · rw [hkeys]
    intro n hn dep hdep
    rcases List.mem_append.1 hn with hn | hn
    · exact h.edges n hn dep hdep
    · obtain rfl := List.mem_singleton.1 hn
      exact (hdeps dep (hown ▸ hdep)).1
  · rw [hkeys]
    intro n hn
    rcases List.mem_append.1 hn with hn | hn
    · exact h.reached n hn
    · exact ⟨(name, spec), hreached, (List.mem_singleton.1 hn).symm⟩

/-- What a walk over `dep` leaves. -/
structure Visited (r : Registry) (root : Manifest) (stack : List String) (deps : List Dependency)
    (resolved resolved' : Dict String ResolvedPkg) : Prop where
  built : Built r root resolved'
  apart : Apart stack resolved'
  kept : ∀ n ∈ resolved.keys, n ∈ resolved'.keys
  found : ∀ dep ∈ deps, Good r dep ∧ dep.1 ∈ resolved'.keys

theorem foldlM_visited {step : Dict String ResolvedPkg → Dependency → Except Stop (Dict String ResolvedPkg)}
    {stack : List String} {deps : List Dependency} {resolved resolved' : Dict String ResolvedPkg}
    (hstep : ∀ b, ∀ dep ∈ deps, ∀ b', Built r root b → Apart stack b → step b dep = .ok b' →
      Visited r root stack [dep] b b')
    (hb : Built r root resolved) (ha : Apart stack resolved) (h : deps.foldlM step resolved = .ok resolved') :
    Visited r root stack deps resolved resolved' := by
  induction deps generalizing resolved with
  | nil =>
    cases h
    exact ⟨hb, ha, fun _ hn => hn, fun _ hd => nomatch hd⟩
  | cons dep deps ih =>
    rw [List.foldlM_cons, bind_ok] at h
    obtain ⟨b₁, hfirst, hrest⟩ := h
    have hv := hstep resolved dep List.mem_cons_self b₁ hb ha hfirst
    have hvs := ih (fun b d hd => hstep b d (List.mem_cons_of_mem _ hd)) hv.built hv.apart hrest
    refine ⟨hvs.built, hvs.apart, fun n hn => hvs.kept n (hv.kept n hn), fun d hd => ?_⟩
    rcases List.mem_cons.1 hd with rfl | hd
    · obtain ⟨hgood, hmem⟩ := hv.found d (List.mem_singleton_self d)
      exact ⟨hgood, hvs.kept _ hmem⟩
    · exact hvs.found d hd

theorem resolveRecursive_ok {fuel : Nat} {stack : List String} {requiredBy : String} {dep : Dependency}
    {resolved resolved' : Dict String ResolvedPkg}
    (h : resolveRecursive r fuel stack requiredBy resolved dep = .ok resolved')
    (hb : Built r root resolved) (ha : Apart stack resolved) (hreached : Reached r root dep) :
    Visited r root stack [dep] resolved resolved' := by
  induction fuel generalizing stack requiredBy dep resolved resolved' with
  | zero => cases h
  | succ fuel ih =>
    obtain ⟨name, spec⟩ := dep
    unfold resolveRecursive at h
    split at h
    · cases h
    · rename_i hstack
      split at h
      · rename_i existing hget
        split at h
        · cases h
        · rename_i hversion
          cases h
          obtain ⟨⟨m, hm, hv⟩, -⟩ := hb.entry name existing hget
          have hkeys := resolved.keys_modify name fun p => { p with requiredBy := p.requiredBy ++ [requiredBy] }
          refine ⟨hb.again, fun n hn => hkeys ▸ ha n hn, fun n hn => hkeys ▸ hn, fun d hd => ?_⟩
          obtain rfl := List.mem_singleton.1 hd
          exact ⟨⟨m, hm, hv.trans (not_not.1 hversion)⟩, hkeys ▸ (resolved.mem_keys name).2 ⟨existing, hget⟩⟩
      · rename_i hget
        split at h
        · cases h
        · rename_i m hm
          split at h
          · cases h
          · rename_i hversion
            rw [bind_ok] at h
            obtain ⟨mid, hfold, hset⟩ := h
            cases hset
            have hdeps : ∀ d ∈ m.dependencies, Reached r root d := fun d hd => hreached.step (mem_deps hm hd)
            have hinner := ha.push hget
            have hv : Visited r root _ m.dependencies resolved mid :=
              foldlM_visited (fun b d hd b' hb ha hstep => ih hstep hb ha (hdeps d hd)) hb hinner hfold
            have hfresh : name ∉ mid.keys := hv.apart name (by simp)
            have hkeys := Dict.keys_set_fresh (v := (⟨spec.version, "registry", [requiredBy]⟩ : ResolvedPkg))
              (get_none_of_not_mem hfresh)
            refine ⟨hv.built.add hm (not_not.1 hversion) hfresh hreached hv.found, ?_, ?_, ?_⟩
            · rw [Apart, hkeys]
              intro n hn hmem
              rcases List.mem_append.1 hmem with hmem | hmem
              · exact hv.apart n (List.mem_append_left _ hn) hmem
              · exact hstack (List.mem_singleton.1 hmem ▸ hn)
            · rw [hkeys]
              exact fun n hn => List.mem_append_left _ (hv.kept n hn)
            · intro d hd
              obtain rfl := List.mem_singleton.1 hd
              exact ⟨⟨m, hm, not_not.1 hversion⟩, by simp [hkeys]⟩

/-- A walk refuses nothing that is resolvable. -/
theorem resolveRecursive_not_refused (hres : Resolvable r root) {fuel : Nat} {stack : List String}
    {requiredBy : String} {dep : Dependency} {resolved : Dict String ResolvedPkg} {e : ResolveError}
    (hb : Built r root resolved) (ha : Apart stack resolved) (hreached : Reached r root dep)
    (hleads : Leads r.Needs stack dep.1) :
    resolveRecursive r fuel stack requiredBy resolved dep ≠ .error (.refused e) := by
  induction fuel generalizing stack requiredBy dep resolved with
  | zero => exact fun h => nomatch h
  | succ fuel ih =>
    obtain ⟨name, spec⟩ := dep
    intro h
    obtain ⟨m, hm, hv⟩ := hres.good _ hreached
    unfold resolveRecursive at h
    split at h
    · rename_i hstack
      exact hres.acyclic _ hreached (hleads name hstack)
    · split at h
      · rename_i existing hget
        split at h
        · rename_i hversion
          obtain ⟨⟨m', hm', hv'⟩, -⟩ := hb.entry name existing hget
          obtain rfl := Option.some.inj (hm.symm.trans hm')
          exact hversion (hv'.symm.trans hv)
        · cases h
      · rename_i hget
        rw [hm] at h
        dsimp only at h
        rw [if_neg (not_not.2 hv)] at h
        have hdeps : ∀ d ∈ m.dependencies, Reached r root d := fun d hd => hreached.step (mem_deps hm hd)
        cases hfold : m.dependencies.foldlM (resolveRecursive r fuel (stack ++ [name]) name) resolved with
        | ok mid =>
          rw [hfold] at h
          cases h
        | error e' =>
          rw [hfold] at h
          cases h
          obtain ⟨b, ⟨hb, ha⟩, d, hd, hfail⟩ := foldlM_error
            (P := fun b => Built r root b ∧ Apart (stack ++ [name]) b)
            (fun b d hd b' hb hstep =>
              have hv := resolveRecursive_ok hstep hb.1 hb.2 (hdeps d hd)
              ⟨hv.built, hv.apart⟩) ⟨hb, ha.push hget⟩ hfold
          exact ih hb ha (hdeps d hd) (hleads.step ⟨d.2, mem_deps hm hd⟩) hfail

/-- The names under way are mentioned by the registry, but for the one that the root names. -/
structure Within (r : Registry) (stack : List String) : Prop where
  nodup : stack.Nodup
  mentioned : ∀ n ∈ stack.tail, n ∈ r.names

theorem Within.length_le {stack : List String} (h : Within r stack) : stack.length ≤ r.names.length + 1 := by
  have hle := (List.subperm_of_subset (h.nodup.sublist stack.tail_sublist) h.mentioned).length_le
  rw [List.length_tail] at hle
  omega

theorem Within.push {stack : List String} {n : String} (h : Within r stack) (hn : n ∉ stack)
    (hname : stack ≠ [] → n ∈ r.names) : Within r (stack ++ [n]) := by
  constructor
  · exact List.nodup_append.2 ⟨h.nodup, List.nodup_singleton n, fun a ha b hb he =>
      hn (List.mem_singleton.1 hb ▸ he ▸ ha)⟩
  · cases stack with
    | nil => exact fun _ hk => nomatch hk
    | cons a stack =>
      intro k hk
      rcases List.mem_append.1 (show k ∈ stack ++ [n] from hk) with hk | hk
      · exact h.mentioned k hk
      · exact List.mem_singleton.1 hk ▸ hname (List.cons_ne_nil a stack)

/-- The budget lasts: the names under way are distinct, so there are no more of them than names. -/
theorem resolveRecursive_within {fuel : Nat} {stack : List String} {requiredBy : String} {dep : Dependency}
    {resolved : Dict String ResolvedPkg} (hw : Within r stack) (hname : stack ≠ [] → dep.1 ∈ r.names)
    (hfuel : r.names.length + 2 ≤ fuel + stack.length) :
    resolveRecursive r fuel stack requiredBy resolved dep ≠ .error .budget := by
  induction fuel generalizing stack requiredBy dep resolved with
  | zero =>
    have hle := hw.length_le
    omega
  | succ fuel ih =>
    obtain ⟨name, spec⟩ := dep
    intro h
    unfold resolveRecursive at h
    split at h
    · cases h
    · rename_i hstack
      split at h
      · split at h <;> cases h
      · split at h
        · cases h
        · rename_i m hm
          split at h
          · cases h
          · cases hfold : m.dependencies.foldlM (resolveRecursive r fuel (stack ++ [name]) name) resolved with
            | ok mid =>
              rw [hfold] at h
              cases h
            | error e' =>
              rw [hfold] at h
              cases h
              obtain ⟨b, -, d, hd, hfail⟩ := foldlM_error (P := fun _ => True)
                (fun _ _ _ _ _ _ => trivial) trivial hfold
              obtain ⟨dir, hdir, hparsed⟩ := manifest?_eq_some.1 hm
              refine ih (hw.push hstack hname) (fun _ => r.mentioned name dir m hdir hparsed d hd) ?_ hfail
              rw [List.length_append, List.length_singleton]
              omega

/-! ## The result -/

theorem resolve_within_budget (r : Registry) (root : Manifest) : resolveGraph r root ≠ .error .budget := by
  intro h
  obtain ⟨b, -, d, -, hfail⟩ := foldlM_error (P := fun _ => True) (fun _ _ _ _ _ _ => trivial) trivial h
  exact resolveRecursive_within ⟨List.nodup_nil, fun _ hk => nomatch hk⟩ (fun hne => absurd rfl hne)
    (Nat.le_refl _) hfail

theorem resolveGraph_ok {resolved : Dict String ResolvedPkg} (h : resolveGraph r root = .ok resolved) :
    Visited r root [] root.dependencies .empty resolved :=
  foldlM_visited (fun _ _ hd _ hb ha hstep => resolveRecursive_ok hstep hb ha (.root hd)) built_empty
    (fun _ hn => nomatch hn) h

theorem resolveGraph_of_resolvable (hres : Resolvable r root) : ∃ resolved, resolveGraph r root = .ok resolved := by
  cases h : resolveGraph r root with
  | ok resolved => exact ⟨resolved, rfl⟩
  | error e =>
    cases e with
    | budget => exact absurd h (resolve_within_budget r root)
    | refused e =>
      obtain ⟨b, ⟨hb, ha⟩, d, hd, hfail⟩ := foldlM_error (P := fun b => Built r root b ∧ Apart [] b)
        (fun b d hd b' hb hstep =>
          have hv := resolveRecursive_ok hstep hb.1 hb.2 (Reached.root hd)
          ⟨hv.built, hv.apart⟩) ⟨built_empty, fun _ hn => nomatch hn⟩ h
      exact absurd hfail (resolveRecursive_not_refused hres hb ha (.root hd) (leads_nil _))

/-! ## What a result says -/

theorem Visited.reached {resolved : Dict String ResolvedPkg}
    (h : Visited r root [] root.dependencies .empty resolved) {dep : Dependency} (hd : Reached r root dep) :
    Good r dep ∧ dep.1 ∈ resolved.keys := by
  induction hd with
  | root hd => exact h.found _ hd
  | @step dep dep' _ hd ih =>
    have hmem := h.built.order.closed (List.mem_reverse.2 ih.2) ⟨dep'.2, hd⟩
    exact ⟨h.built.edges dep.1 ih.2 dep' hd, List.mem_reverse.1 hmem⟩

theorem Visited.resolvable {resolved : Dict String ResolvedPkg}
    (h : Visited r root [] root.dependencies .empty resolved) : Resolvable r root := by
  refine ⟨fun dep hd => (h.reached hd).1, fun dep hd => ?_⟩
  exact h.built.order.acyclic (List.nodup_reverse.2 h.built.nodup) (List.mem_reverse.2 (h.reached hd).2)

theorem resolveGraph_ok_iff : (∃ resolved, resolveGraph r root = .ok resolved) ↔ Resolvable r root :=
  ⟨fun ⟨_, h⟩ => (resolveGraph_ok h).resolvable, resolveGraph_of_resolvable⟩

theorem Visited.mem_keys {resolved : Dict String ResolvedPkg}
    (h : Visited r root [] root.dependencies .empty resolved) {n : String} :
    n ∈ resolved.keys ↔ ∃ dep, Reached r root dep ∧ dep.1 = n := by
  refine ⟨h.built.reached n, ?_⟩
  rintro ⟨dep, hd, rfl⟩
  exact (h.reached hd).2

/-! ## The order of iteration -/

theorem Registry.Reorders.good {r' : Registry} (h : r.Reorders r') {dep : Dependency} : Good r dep ↔ Good r' dep := by
  have hn := h.manifest? dep.1
  unfold Good
  generalize r.manifest? dep.1 = m, r'.manifest? dep.1 = m' at hn
  cases hn with
  | none => simp
  | some hn => simp [hn.version]

theorem Registry.Reorders.resolvable {r' : Registry} {root' : Manifest} (h : r.Reorders r')
    (hroot : root.Reorders root') : Resolvable r root ↔ Resolvable r' root' := by
  constructor
  · intro hres
    refine ⟨fun dep hd => h.good.1 (hres.good dep ((h.reached hroot).2 hd)), fun dep hd => ?_⟩
    rw [← h.needs]
    exact hres.acyclic dep ((h.reached hroot).2 hd)
  · intro hres
    refine ⟨fun dep hd => h.good.2 (hres.good dep ((h.reached hroot).1 hd)), fun dep hd => ?_⟩
    rw [h.needs]
    exact hres.acyclic dep ((h.reached hroot).1 hd)

/-- An entry of the lockfile says what the registry has, of a package that is resolved. -/
theorem Built.mem_locked {resolved : Dict String ResolvedPkg} (h : Built r root resolved) {e : LockedPkg} :
    e ∈ resolved.pairs.map locked ↔
      e.name ∈ resolved.keys ∧ Good r (e.name, .bare e.version) ∧ e.source = "registry" := by
  constructor
  · intro he
    obtain ⟨⟨n, pkg⟩, hp, rfl⟩ := List.mem_map.1 he
    obtain ⟨hgood, hsource⟩ := h.entry n pkg (Dict.get_of_mem_pairs h.nodup hp)
    exact ⟨List.mem_map_of_mem hp, hgood, hsource⟩
  · rintro ⟨hmem, ⟨m, hm, hv⟩, hs⟩
    obtain ⟨pkg, hget⟩ := (resolved.mem_keys e.name).1 hmem
    obtain ⟨⟨m', hm', hv'⟩, hsource⟩ := h.entry e.name pkg hget
    obtain rfl := Option.some.inj (hm.symm.trans hm')
    refine List.mem_map.2 ⟨(e.name, pkg), Dict.mem_pairs_of_get hget, ?_⟩
    simp only [locked, ← hv', hv, hsource, ← hs, DependencySpec.version]

/-- Lists that have each name once are sorted to the same list. -/
theorem insertionSort_le_eq {l l' : List LockedPkg} (hperm : l.Perm l') (hnodup : (l.map (·.name)).Nodup) :
    l.insertionSort LockedPkg.Le = l'.insertionSort LockedPkg.Le := by
  have hboth := (List.perm_insertionSort LockedPkg.Le l).trans
    (hperm.trans (List.perm_insertionSort LockedPkg.Le l').symm)
  refine List.Perm.eq_of_pairwise (fun a b ha hb hab hba => ?_) (List.pairwise_insertionSort _ l)
    (List.pairwise_insertionSort _ l') hboth
  have hb' : b ∈ l := hperm.mem_iff.2 ((List.mem_insertionSort _).1 hb)
  exact List.inj_on_of_nodup_map hnodup ((List.mem_insertionSort _).1 ha) hb' (String.le_antisymm hab hba)

theorem fromResolved_eq {resolved resolved' : Dict String ResolvedPkg} (hnodup : resolved.keys.Nodup)
    (hnodup' : resolved'.keys.Nodup)
    (h : ∀ e, e ∈ resolved.pairs.map locked ↔ e ∈ resolved'.pairs.map locked) :
    fromResolved resolved = fromResolved resolved' := by
  have hnames : ∀ d : Dict String ResolvedPkg, (d.pairs.map locked).map (·.name) = d.keys := by
    intro d
    simp [Dict.keys, locked, Function.comp_def]
  have hperm : (resolved.pairs.map locked).Perm (resolved'.pairs.map locked) :=
    (List.perm_ext_iff_of_nodup (.of_map _ (hnames resolved ▸ hnodup)) (.of_map _ (hnames resolved' ▸ hnodup'))).2 h
  have hby : ∀ d : Dict String ResolvedPkg, ((byName d).map locked).Perm (d.pairs.map locked) :=
    fun d => (List.perm_insertionSort _ _).map _
  unfold fromResolved
  congr 1
  refine insertionSort_le_eq ((hby resolved).trans (hperm.trans (hby resolved').symm)) ?_
  exact ((hby resolved).map _).nodup_iff.2 (hnames resolved ▸ hnodup)

theorem lockfile_eq {r' : Registry} {root' : Manifest} {resolved resolved' : Dict String ResolvedPkg}
    (hr : r.Reorders r') (hroot : root.Reorders root')
    (h : Visited r root [] root.dependencies .empty resolved)
    (h' : Visited r' root' [] root'.dependencies .empty resolved') :
    fromResolved resolved = fromResolved resolved' := by
  refine fromResolved_eq h.built.nodup h'.built.nodup fun e => ?_
  rw [h.built.mem_locked, h'.built.mem_locked, hr.good, h.mem_keys, h'.mem_keys]
  simp only [hr.reached hroot]

/-- The walk ends; it succeeds exactly on what is resolvable, with the packages that the root leads to; and in
another order of iteration it ends the same way, with the same lockfile. -/
theorem resolve_exact {r r' : Registry} {root root' : Manifest} (hr : r.Reorders r') (hroot : root.Reorders root') :
    resolveGraph r root ≠ .error .budget ∧
      ((∃ resolved, resolveGraph r root = .ok resolved) ↔ Resolvable r root) ∧
      (∀ resolved, resolveGraph r root = .ok resolved →
        resolved.keys.Nodup ∧ ∀ n, n ∈ resolved.keys ↔ ∃ dep, Reached r root dep ∧ dep.1 = n) ∧
      (resolveGraph r root).toOption.map fromResolved = (resolveGraph r' root').toOption.map fromResolved := by
  refine ⟨resolve_within_budget r root, resolveGraph_ok_iff, fun resolved h => ?_, ?_⟩
  · exact ⟨(resolveGraph_ok h).built.nodup, fun n => (resolveGraph_ok h).mem_keys⟩
  · cases h : resolveGraph r root with
    | ok resolved =>
      obtain ⟨resolved', h'⟩ := resolveGraph_of_resolvable ((hr.resolvable hroot).1 (resolveGraph_ok h).resolvable)
      rw [h']
      exact congrArg some (lockfile_eq hr hroot (resolveGraph_ok h) (resolveGraph_ok h'))
    | error e =>
      cases h' : resolveGraph r' root' with
      | ok resolved' =>
        obtain ⟨resolved, hok⟩ := resolveGraph_of_resolvable ((hr.resolvable hroot).2 (resolveGraph_ok h').resolvable)
        rw [h] at hok
        cases hok
      | error e' => rfl

theorem only_c : ([("c", .bare "0.1.0")] : List Dependency).map (·.1) |>.Nodup := by
  simp

theorem nothing_twice : ([] : List Dependency).map (·.1) |>.Nodup := by
  simp

/-- `a` and `b` both need `c`. -/
def diamondDir : String → Option PackageDir
  | "a" => some ⟨.parsed ⟨"a", "1.0.0", [("c", .bare "0.1.0")], none, only_c⟩, [], none⟩
  | "b" => some ⟨.parsed ⟨"b", "2.0.0", [("c", .bare "0.1.0")], none, only_c⟩, [], none⟩
  | "c" => some ⟨.parsed ⟨"c", "0.1.0", [], none, nothing_twice⟩, [], none⟩
  | _ => none

theorem diamondDir_mentioned (n : String) (d : PackageDir) (m : Manifest) (hd : diamondDir n = some d)
    (hm : d.manifest = .parsed m) : ∀ dep ∈ m.dependencies, dep.1 ∈ ["c"] := by
  unfold diamondDir at hd
  split at hd <;> cases hd <;> cases hm <;> simp

def diamond : Registry := ⟨diamondDir, ["c"], diamondDir_mentioned⟩

def diamondRoot : Manifest := ⟨"app", "1.0.0", [("a", .bare "1.0.0"), ("b", .bare "2.0.0")], none, by simp⟩

def diamondRoot' : Manifest := ⟨"app", "1.0.0", [("b", .bare "2.0.0"), ("a", .bare "1.0.0")], none, by simp⟩

theorem resolve_exact_diamond :
    (resolveGraph diamond diamondRoot).toOption.map fromResolved =
        (resolveGraph diamond diamondRoot').toOption.map fromResolved ∧
      (resolveGraph diamond diamondRoot).toOption.map fromResolved = some ⟨1, [⟨"a", "1.0.0", "registry"⟩,
        ⟨"b", "2.0.0", "registry"⟩, ⟨"c", "0.1.0", "registry"⟩]⟩ :=
  ⟨(resolve_exact (.refl diamond) (⟨rfl, rfl, rfl, .swap _ _ _⟩ : diamondRoot.Reorders diamondRoot')).2.2.2,
    by decide +kernel⟩

end Metalogos.Package
