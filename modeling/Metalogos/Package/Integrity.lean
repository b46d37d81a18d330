import Metalogos.Lib.DepthFirst
import Metalogos.Lib.Fallible
import Metalogos.Lib.Text
import Metalogos.Package.Manifest

/-!
# The integrity gate

`verify_dependency_integrity` of `mlogpkg/src/main.rs`: before a build, every requirement has to pin a digest
that the package's tree re-derives to, and under a pinned key the package's document has to carry a signature
of that digest. The walk passes over a requirement whose package it saw before, so it checks the first
requirement of each package that it comes to (`verify_ok_iff`), and where two requirements of a package pin
different digests the order of iteration decides (`gate_order`).

`complete_iff`: the gate is complete and the same in every order exactly when the requirements of a package
agree, unless in every order one that is met first is not sound.
-/
namespace Metalogos.Package

open Metalogos.Lib

/-- Digests, signatures, key files, the text of the hex decoder's error and the path of a package's document. -/
structure Env where
  sha256 : List UInt8 → List UInt8
  hmac : List UInt8 → List UInt8 → List UInt8
  keyFile : String → Except String String
  decodeError : List Char → String
  docPath : String → String

/-- Why a check does not pass: it panics, or it refuses. -/
inductive Failure where
  | panicked
  | refused (text : String)
  deriving DecidableEq, Repr

/-- Why the walk stops before its end: it has no budget left, or a check does not pass. -/
inductive Halt where
  | budget
  | failed (f : Failure)
  deriving DecidableEq, Repr

/-! ## The digest document -/

def utf8 (s : List Char) : List UInt8 := s.flatMap String.utf8EncodeChar

/-- mirrors mlogpkg/src/main.rs:1173-1189 -/
def jsonEscape (s : List Char) : List Char :=
  s.flatMap fun c =>
    if c = '"' then ['\\', '"']
    else if c = '\\' then ['\\', '\\']
    else if c = '\n' then ['\\', 'n']
    else if c = '\r' then ['\\', 'r']
    else if c = '\t' then ['\\', 't']
    else if c.toNat < 0x20 then ['\\', 'u', '0', '0', hexDigit (c.toNat / 16), hexDigit (c.toNat % 16)]
    else [c]

/-- mirrors mlogpkg/src/main.rs:1191-1196 -/
def sha256Hex (env : Env) (bytes : List UInt8) : List Char := hexEncode (env.sha256 bytes)

/-- One entry of `files`.
mirrors mlogpkg/src/main.rs:1250-1261 -/
def fileEntry (env : Env) (file : String × Except String (List UInt8)) : Except Failure (List Char) :=
  let rel := file.1.toList.map fun c => if c = '\\' then '/' else c
  match file.2 with
  | .error e => .error (.refused ("file missing: " ++ String.ofList rel ++ ": " ++ e))
  | .ok bytes => .ok ("\x7b\"path\":\"".toList ++ jsonEscape rel ++ "\",\"sha256\":\"".toList ++
      sha256Hex env bytes ++ "\"\x7d".toList)

/-- The document, and the digest of its bytes.
mirrors mlogpkg/src/main.rs:1236-1270 -/
def buildDigestDocument (env : Env) (dir : PackageDir) : Except Failure (List Char × List Char) :=
  match dir.manifest with
  | .missing => .error (.refused "mlog.toml not found — run `mlogpkg init` first")
  | .unreadable => .error .panicked
  | .parsed manifest =>
    if dir.files.isEmpty then .error (.refused "package tree is empty")
    else do
      let entries ← dir.files.mapM (fileEntry env)
      let doc := "\x7b\"files\":[".toList ++ [','].intercalate entries ++ "],\"package\":\x7b\"name\":\"".toList ++
        jsonEscape manifest.name.toList ++ "\",\"version\":\"".toList ++ jsonEscape manifest.version.toList ++
        "\"\x7d\x7d".toList
      .ok (doc, sha256Hex env (utf8 doc))

/-! ## Signatures -/

/-- mirrors mlogpkg/src/main.rs:1279-1287 -/
def signDigest (env : Env) (key digest : List UInt8) : List Char := hexEncode (env.hmac key digest)

/-- mirrors mlogpkg/src/main.rs:1289-1294 -/
def readKeyFile (env : Env) (path : String) : Except Failure (List UInt8) :=
  match env.keyFile path with
  | .error e => .error (.refused ("key file missing: " ++ path ++ ": " ++ e))
  | .ok text =>
    match hexDecode (trim text.toList) with
    | none => .error (.refused ("malformed key file " ++ path ++ ": " ++ env.decodeError (trim text.toList)))
    | some key => .ok key

/-- mirrors mlogpkg/src/main.rs:1297-1306 -/
def ctEq (a b : List UInt8) : Bool :=
  if a.length ≠ b.length then false else (a.zip b).foldl (fun diff p => diff ||| (p.1 ^^^ p.2)) 0 == 0

def signaturePrefix : List Char := "signature: ".toList

/-- The signature in the second line of the stored document. -/
def trailerSignature (text : String) : Option (List Char) :=
  let trailer := (lines text.toList).getD 1 []
  if signaturePrefix.isPrefixOf trailer then some (trailer.drop signaturePrefix.length) else none

/-- Step 3 of a node.
mirrors mlogpkg/src/main.rs:546-579 -/
def checkSignature (env : Env) (verifyKey : Option String) (name : String) (dir : PackageDir) (actual : List Char) :
    Except Failure Unit :=
  match dir.document, verifyKey with
  | some stored, some vk =>
    match stored with
    | .error e => .error (.refused ("integrity: cannot read " ++ env.docPath name ++ ": " ++ e))
    | .ok text =>
      match trailerSignature text with
      | none => .error (.refused ("signature required for '" ++ name ++ "' (verify_key is pinned) but the package " ++
          "document has none — run `mlogpkg sign`"))
      | some sigHex => do
        let key ← readKeyFile env vk
        match hexDecode actual with
        | none => .error (.refused "integrity: internal digest decode")
        | some digest =>
          if ctEq (utf8 (signDigest env key digest)) (utf8 (trim sigHex)) then .ok ()
          else .error (.refused ("signature mismatch for '" ++ name ++ "'"))
  | none, some _ => .error (.refused ("signature required for '" ++ name ++ "' (verify_key is pinned) but the " ++
      "package document is missing — run `mlogpkg pack` + `mlogpkg sign`"))
  | _, none => .ok ()

/-! ## The walk -/

/-- Steps 1 to 3 of a node, and the manifest that step 4 goes on with.
mirrors mlogpkg/src/main.rs:517-584 -/
def checkNode (env : Env) (r : Registry) (verifyKey : Option String) (requiredBy : String) (dep : Dependency) :
    Except Failure Manifest :=
  let name := dep.1
  match dep.2.digest with
  | none => .error (.refused ("digest pin missing for '" ++ name ++ "' (required by '" ++ requiredBy ++
      "') — pin it in mlog.toml [dependencies]: " ++ name ++ " = \x7b version = \"" ++ dep.2.version ++
      "\", digest = \"<64 hex>\" \x7d (№911, ADR-0218 §4.2)"))
  | some pinned =>
    match r.dir name with
    | none => .error (.refused ("package '" ++ name ++ "' (required by '" ++ requiredBy ++
        "') not found in local registry"))
    | some dir =>
      match buildDigestDocument env dir with
      | .error (.refused e) => .error (.refused ("integrity: cannot re-derive '" ++ name ++ "': " ++ e))
      | .error h => .error h
      | .ok (_, actual) =>
        if actual ≠ pinned.toList then
          .error (.refused ("digest pin mismatch for '" ++ name ++ "': pinned " ++ pinned ++
            ", registry tree re-derives " ++ String.ofList actual))
        else do
          checkSignature env verifyKey name dir actual
          match dir.manifest.read with
          | none => .error (.refused ("integrity: cannot read manifest of '" ++ name ++ "'"))
          | some manifest => .ok manifest

/-- mirrors mlogpkg/src/main.rs:504-588 -/
def verifyIntegrityNode (env : Env) (r : Registry) (verifyKey : Option String) : Nat → String → List String →
    Dependency → Except Halt (List String)
  | 0, _, _, _ => .error .budget
  | fuel + 1, requiredBy, seen, dep =>
    if dep.1 ∈ seen then .ok seen
    else
      match checkNode env r verifyKey requiredBy dep with
      | .error f => .error (.failed f)
      | .ok manifest =>
        manifest.dependencies.foldlM (verifyIntegrityNode env r verifyKey fuel dep.1) (seen ++ [dep.1])

/-- mirrors mlogpkg/src/main.rs:484-502 -/
def verifyDependencyIntegrity (env : Env) (r : Registry) (root : Manifest) : Except Halt Unit := do
  let _ ← root.dependencies.foldlM
    (verifyIntegrityNode env r root.verifyKey (r.names.length + 2) root.name) []
  .ok ()

/-! ## What a sound requirement is -/

section

variable {env : Env} {r : Registry} {root : Manifest} {key : Option String}

/-- It pins a digest, and the package's tree re-derives to it. -/
def Pinned (env : Env) (r : Registry) (dep : Dependency) : Prop :=
  ∃ dir doc pinned, r.dir dep.1 = some dir ∧ dep.2.digest = some pinned ∧
    buildDigestDocument env dir = .ok (doc, pinned.toList)

/-- The package's document carries a signature of the digest under the key in the file `vk`. -/
def Signed (env : Env) (r : Registry) (name vk : String) : Prop :=
  ∃ dir doc actual text sigHex secret digest, r.dir name = some dir ∧
    buildDigestDocument env dir = .ok (doc, actual) ∧ dir.document = some (.ok text) ∧
    trailerSignature text = some sigHex ∧ readKeyFile env vk = .ok secret ∧ hexDecode actual = some digest ∧
    trim sigHex = signDigest env secret digest

structure Sound (env : Env) (key : Option String) (r : Registry) (dep : Dependency) : Prop where
  pinned : Pinned env r dep
  signed : ∀ vk, key = some vk → Signed env r dep.1 vk

theorem utf8_inj {a b : List Char} (h : utf8 a = utf8 b) : a = b := by
  have hbytes : (String.ofList a).toByteArray = (String.ofList b).toByteArray := congrArg List.toByteArray h
  exact String.ofList_inj.1 (String.toByteArray_inj.1 hbytes)

theorem foldl_or_xor_eq_zero {l : List (UInt8 × UInt8)} {d : UInt8} :
    l.foldl (fun diff p => diff ||| (p.1 ^^^ p.2)) d = 0 ↔ d = 0 ∧ ∀ p ∈ l, p.1 = p.2 := by
  induction l generalizing d with
  | nil => simp
  | cons p l ih =>
    rw [List.foldl_cons, ih, UInt8.or_eq_zero_iff, UInt8.xor_eq_zero_iff, List.forall_mem_cons, and_assoc]

theorem zip_all_eq {a b : List UInt8} (hlen : a.length = b.length) : (∀ p ∈ a.zip b, p.1 = p.2) ↔ a = b := by
  induction a generalizing b with
  | nil =>
    obtain rfl := List.length_eq_zero_iff.1 hlen.symm
    simp
  | cons x a ih =>
    cases b with
    | nil => cases hlen
    | cons y b =>
      rw [List.zip_cons_cons, List.forall_mem_cons, ih (Nat.succ.inj hlen), List.cons.injEq]

theorem ctEq_iff {a b : List UInt8} : ctEq a b = true ↔ a = b := by
  unfold ctEq
  split
  · rename_i hlen
    simp only [Bool.false_eq_true, false_iff]
    exact fun h => hlen (congrArg List.length h)
  · rename_i hlen
    rw [beq_iff_eq, foldl_or_xor_eq_zero, zip_all_eq (not_not.1 hlen)]
    simp

theorem checkSignature_ok {name : String} {dir : PackageDir} {doc actual : List Char} (hdir : r.dir name = some dir)
    (hdoc : buildDigestDocument env dir = .ok (doc, actual)) :
    checkSignature env key name dir actual = .ok () ↔ ∀ vk, key = some vk → Signed env r name vk := by
  constructor
  · rintro h vk rfl
    unfold checkSignature at h
    cases hstored : dir.document with
    | none =>
      rw [hstored] at h
      cases h
    | some stored =>
      rw [hstored] at h
      cases stored with
      | error e => cases h
      | ok text =>
        dsimp only at h
        split at h
        · cases h
        · rename_i sigHex htrailer
          rw [bind_ok] at h
          obtain ⟨secret, hkey, h⟩ := h
          split at h
          · cases h
          · rename_i digest hdigest
            split at h
            · rename_i heq
              exact ⟨dir, doc, actual, text, sigHex, secret, digest, hdir, hdoc, hstored, htrailer, hkey, hdigest,
                (utf8_inj (ctEq_iff.1 heq)).symm⟩
            · cases h
  · intro h
    unfold checkSignature
    cases key with
    | none => cases dir.document <;> rfl
    | some vk =>
      obtain ⟨dir', doc', actual', text, sigHex, secret, digest, hdir', hdoc', hstored, htrailer, hkey, hdigest,
        hsig⟩ := h vk rfl
      obtain rfl := Option.some.inj (hdir.symm.trans hdir')
      obtain ⟨rfl, rfl⟩ := Prod.mk.inj (Except.ok.inj (hdoc.symm.trans hdoc'))
      rw [hstored]
      simp only [htrailer, hkey, hdigest, hsig]
      exact if_pos (ctEq_iff.2 rfl)

theorem manifest_of_document {dir : PackageDir} {doc : List Char × List Char}
    (h : buildDigestDocument env dir = .ok doc) : ∃ m, dir.manifest = .parsed m := by
  unfold buildDigestDocument at h
  split at h
  · cases h
  · cases h
  · exact ⟨_, ‹_›⟩

/-- The checks of a node pass exactly on a sound requirement. -/
theorem checkNode_ok {requiredBy : String} {dep : Dependency} {m : Manifest} :
    checkNode env r key requiredBy dep = .ok m ↔ Sound env key r dep ∧ r.manifest? dep.1 = some m := by
  constructor
  · intro h
    unfold checkNode at h
    dsimp only at h
    split at h
    · cases h
    · rename_i pinned hpinned
      split at h
      · cases h
      · rename_i dir hdir
        split at h
        · cases h
        · cases h
        · rename_i doc actual hdoc
          split at h
          · cases h
          · rename_i hactual
            rw [bind_ok] at h
            obtain ⟨u, hsig, h⟩ := h
            split at h
            · cases h
            · rename_i manifest hread
              cases h
              refine ⟨⟨⟨dir, doc, pinned, hdir, hpinned, ?_⟩, (checkSignature_ok hdir hdoc).1 hsig⟩, ?_⟩
              · rw [hdoc, not_not.1 hactual]
              · rw [Registry.manifest?, hdir]
                exact hread
  · rintro ⟨⟨⟨dir, doc, pinned, hdir, hpinned, hdoc⟩, hsigned⟩, hm⟩
    have hread : dir.manifest.read = some m := by
      rw [Registry.manifest?, hdir] at hm
      exact hm
    unfold checkNode
    simp only [hpinned, hdir, hdoc, ne_eq, not_true_eq_false, if_false, (checkSignature_ok hdir hdoc).2 hsigned, hread]
    rfl

theorem Sound.manifest {dep : Dependency} (h : Sound env key r dep) : ∃ m, r.manifest? dep.1 = some m := by
  obtain ⟨dir, doc, pinned, hdir, -, hdoc⟩ := h.pinned
  obtain ⟨m, hm⟩ := manifest_of_document hdoc
  exact ⟨m, manifest?_eq_some.2 ⟨dir, hdir, hm⟩⟩

/-- A requirement of the same digest is as sound. -/
theorem Sound.of_digest {dep dep' : Dependency} (h : Sound env key r dep) (hname : dep'.1 = dep.1)
    (hdigest : dep'.2.digest = dep.2.digest) : Sound env key r dep' := by
  constructor
  · obtain ⟨dir, doc, pinned, hdir, hpinned, hdoc⟩ := h.pinned
    exact ⟨dir, doc, pinned, hname ▸ hdir, hdigest.trans hpinned, hdoc⟩
  · rw [hname]
    exact h.signed

/-- Sound requirements of one package pin one digest. -/
theorem Sound.digest_eq {dep dep' : Dependency} (h : Sound env key r dep) (h' : Sound env key r dep')
    (hname : dep.1 = dep'.1) : dep.2.digest = dep'.2.digest := by
  obtain ⟨dir, doc, pinned, hdir, hpinned, hdoc⟩ := h.pinned
  obtain ⟨dir', doc', pinned', hdir', hpinned', hdoc'⟩ := h'.pinned
  rw [hname] at hdir
  obtain rfl := Option.some.inj (hdir.symm.trans hdir')
  obtain ⟨-, heq⟩ := Prod.mk.inj (Except.ok.inj (hdoc.symm.trans hdoc'))
  rw [hpinned, hpinned', String.toList_inj.1 heq]

/-! ## What the walk checks -/

/-- What is required next. -/
def follow (r : Registry) (dep : Dependency) : List Dependency := r.deps dep.1

/-- The requirements that the walk comes to first, one of each package. -/
def firsts (r : Registry) (root : Manifest) : List Dependency :=
  scanAll (·.1) (follow r) (r.names.length + 2) root.dependencies

theorem follow_mem_names {dep dep' : Dependency} (h : dep' ∈ follow r dep) : dep'.1 ∈ r.names := by
  unfold follow Registry.deps at h
  split at h
  · cases h
  · rename_i m hm
    obtain ⟨dir, hdir, hparsed⟩ := manifest?_eq_some.1 hm
    exact r.mentioned dep.1 dir m hdir hparsed dep' h

theorem reached_iff {dep : Dependency} :
    Reached r root dep ↔ ∃ a ∈ root.dependencies, Relation.ReflTransGen (fun x y => y ∈ follow r x) a dep := by
  constructor
  · intro h
    induction h with
    | root h => exact ⟨_, h, .refl⟩
    | step _ hd ih =>
      obtain ⟨a, ha, hchain⟩ := ih
      exact ⟨a, ha, hchain.tail hd⟩
  · rintro ⟨a, ha, hchain⟩
    induction hchain with
    | refl => exact .root ha
    | tail _ hd ih => exact .step ih hd

theorem firsts_reached {dep : Dependency} (h : dep ∈ firsts r root) : Reached r root dep :=
  reached_iff.2 (scanAll_reach h)

theorem reached_firsts {dep : Dependency} (h : Reached r root dep) : ∃ d ∈ firsts r root, d.1 = dep.1 := by
  obtain ⟨a, ha, hchain⟩ := reached_iff.1 h
  exact scanAll_covers (fun _ _ => follow_mem_names) (fun x y hxy => congrArg r.deps hxy) (Nat.le_refl _) ha hchain

theorem foldlM_ok_iff {step : List String → Dependency → Except Halt (List String)} {fuel : Nat} {as met : List Dependency}
    {seen : List String} (hstep : ∀ met, ∀ a ∈ as, ∀ seen, Suffices r.names fuel (met.map (·.1)) a.1 →
      (∀ d ∈ met, Sound env key r d) → (step (met.map (·.1)) a = .ok seen ↔
        (∀ d ∈ scan (·.1) (follow r) fuel met a, Sound env key r d) ∧
          seen = (scan (·.1) (follow r) fuel met a).map (·.1)))
    (hfuel : ∀ a ∈ as, Suffices r.names fuel (met.map (·.1)) a.1) (hmet : ∀ d ∈ met, Sound env key r d) :
    as.foldlM step (met.map (·.1)) = .ok seen ↔
      (∀ d ∈ as.foldl (scan (·.1) (follow r) fuel) met, Sound env key r d) ∧
        seen = (as.foldl (scan (·.1) (follow r) fuel) met).map (·.1) := by
  induction as generalizing met with
  | nil =>
    simp only [List.foldlM_nil, List.foldl_nil, pure, Except.pure, Except.ok.injEq]
    exact ⟨fun h => ⟨hmet, h.symm⟩, fun h => h.2.symm⟩
  | cons a as ih =>
    have hsub : met ⊆ scan (·.1) (follow r) fuel met a := scan_subset
    have hrest (hfirst : ∀ d ∈ scan (·.1) (follow r) fuel met a, Sound env key r d) :=
      ih (fun b x hx => hstep b x (List.mem_cons_of_mem a hx))
        (fun x hx => (hfuel x (List.mem_cons_of_mem a hx)).mono (List.map_subset _ hsub)) hfirst
    rw [List.foldlM_cons, bind_ok, List.foldl_cons]
    constructor
    · rintro ⟨mid, hmid, htail⟩
      obtain ⟨hfirst, rfl⟩ := (hstep met a List.mem_cons_self mid (hfuel a List.mem_cons_self) hmet).1 hmid
      exact (hrest hfirst).1 htail
    · intro h
      have hfirst : ∀ d ∈ scan (·.1) (follow r) fuel met a, Sound env key r d :=
        fun d hd => h.1 d (foldl_scan_subset hd)
      exact ⟨_, (hstep met a List.mem_cons_self _ (hfuel a List.mem_cons_self) hmet).2 ⟨hfirst, rfl⟩,
        (hrest hfirst).2 h⟩

/-- A node passes exactly when every requirement it is the first to come to is sound. -/
theorem verifyIntegrityNode_ok {fuel : Nat} {requiredBy : String} {met : List Dependency} {dep : Dependency}
    {seen : List String} (hfuel : Suffices r.names fuel (met.map (·.1)) dep.1) (hmet : ∀ d ∈ met, Sound env key r d) :
    verifyIntegrityNode env r key fuel requiredBy (met.map (·.1)) dep = .ok seen ↔
      (∀ d ∈ scan (·.1) (follow r) fuel met dep, Sound env key r d) ∧
        seen = (scan (·.1) (follow r) fuel met dep).map (·.1) := by
  induction fuel generalizing requiredBy met dep seen with
  | zero => exact absurd hfuel not_suffices_zero
  | succ fuel ih =>
    unfold verifyIntegrityNode scan
    by_cases hseen : dep.1 ∈ met.map (·.1)
    · rw [if_pos hseen, if_pos hseen]
      simp only [Except.ok.injEq]
      exact ⟨fun h => ⟨hmet, h.symm⟩, fun h => h.2.symm⟩
    · rw [if_neg hseen, if_neg hseen]
      have hpush : met.map (·.1) ++ [dep.1] = (met ++ [dep]).map (·.1) := by simp
      have hfold (m : Manifest) (hm : r.manifest? dep.1 = some m) (hdep : Sound env key r dep) :
          m.dependencies.foldlM (verifyIntegrityNode env r key fuel dep.1) ((met ++ [dep]).map (·.1)) = .ok seen ↔ _ :=
        foldlM_ok_iff (fun met a _ seen => ih)
          (fun a ha => hpush ▸ hfuel.push hseen (follow_mem_names (show a ∈ follow r dep from mem_deps hm ha)))
          (fun d hd => (List.mem_append.1 hd).elim (hmet d) fun h => List.mem_singleton.1 h ▸ hdep)
      constructor
      · intro h
        split at h
        · cases h
        · rename_i m hcheck
          obtain ⟨hdep, hm⟩ := checkNode_ok.1 hcheck
          rw [follow, deps_of_manifest hm]
          exact (hfold m hm hdep).1 (hpush ▸ h)
      · intro h
        have hdep : Sound env key r dep := h.1 dep (foldl_scan_subset (by simp))
        obtain ⟨m, hm⟩ := hdep.manifest
        rw [checkNode_ok.2 ⟨hdep, hm⟩, hpush]
        rw [follow, deps_of_manifest hm] at h
        exact (hfold m hm hdep).2 h

theorem verify_ok_iff :
    verifyDependencyIntegrity env r root = .ok () ↔ ∀ d ∈ firsts r root, Sound env root.verifyKey r d := by
  have hfold (seen : List String) : root.dependencies.foldlM
      (verifyIntegrityNode env r root.verifyKey (r.names.length + 2) root.name) (([] : List Dependency).map (·.1)) =
        .ok seen ↔
        (∀ d ∈ firsts r root, Sound env root.verifyKey r d) ∧ seen = (firsts r root).map (·.1) :=
    foldlM_ok_iff (fun _ _ _ _ => verifyIntegrityNode_ok)
      (fun a _ => suffices_all (Nat.le_refl _) _ a.1) (fun _ hd => absurd hd List.not_mem_nil)
  unfold verifyDependencyIntegrity
  rw [bind_ok]
  constructor
  · rintro ⟨seen, h, -⟩
    exact ((hfold seen).1 h).1
  · intro h
    exact ⟨_, (hfold _).2 ⟨h, rfl⟩, rfl⟩

/-! ## The budget -/

theorem verifyIntegrityNode_subset {fuel : Nat} {requiredBy : String} {seen seen' : List String} {dep : Dependency}
    (h : verifyIntegrityNode env r key fuel requiredBy seen dep = .ok seen') : seen ⊆ seen' := by
  induction fuel generalizing requiredBy seen dep seen' with
  | zero => cases h
  | succ fuel ih =>
    unfold verifyIntegrityNode at h
    split at h
    · cases h
      exact List.Subset.refl seen
    · split at h
      · cases h
      · exact foldlM_keeps (P := fun b => seen ⊆ b) (fun _ _ _ _ hb hstep => List.Subset.trans hb (ih hstep))
          (List.subset_append_left seen [dep.1]) h

theorem verifyIntegrityNode_within {fuel : Nat} {requiredBy : String} {seen : List String} {dep : Dependency}
    (hfuel : Suffices r.names fuel seen dep.1) :
    verifyIntegrityNode env r key fuel requiredBy seen dep ≠ .error .budget := by
  induction fuel generalizing requiredBy seen dep with
  | zero => exact absurd hfuel not_suffices_zero
  | succ fuel ih =>
    intro h
    unfold verifyIntegrityNode at h
    split at h
    · cases h
    · rename_i hnew
      split at h
      · cases h
      · rename_i m hcheck
        obtain ⟨b, hb, d, hd, hfail⟩ := foldlM_error (P := fun b => seen ++ [dep.1] ⊆ b)
          (fun _ _ _ _ hb hstep => List.Subset.trans hb (verifyIntegrityNode_subset hstep)) (List.Subset.refl _) h
        have hname : d.1 ∈ r.names := follow_mem_names (mem_deps (checkNode_ok.1 hcheck).2 hd)
        exact ih ((hfuel.push hnew hname).mono hb) hfail

theorem verify_within_budget (env : Env) (r : Registry) (root : Manifest) :
    verifyDependencyIntegrity env r root ≠ .error .budget := by
  intro h
  unfold verifyDependencyIntegrity at h
  cases hfold : root.dependencies.foldlM
      (verifyIntegrityNode env r root.verifyKey (r.names.length + 2) root.name) [] with
  | ok seen =>
    rw [hfold] at h
    cases h
  | error e =>
    rw [hfold] at h
    cases h
    obtain ⟨b, -, d, -, hfail⟩ := foldlM_error (P := fun _ => True) (fun _ _ _ _ _ _ => trivial) trivial hfold
    exact verifyIntegrityNode_within (suffices_all (Nat.le_refl _) b d.1) hfail

/-! ## Orders of iteration -/

theorem PackageDir.Reorders.document_eq {d d' : PackageDir} (h : d.Reorders d') :
    buildDigestDocument env d' = buildDigestDocument env d := by
  obtain ⟨hmanifest, hfiles, -⟩ := h
  unfold buildDigestDocument
  rw [hfiles]
  generalize d.manifest = m, d'.manifest = m' at hmanifest
  cases hmanifest with
  | missing => rfl
  | unreadable => rfl
  | parsed h => simp only [h.name, h.version]

theorem Registry.Reorders.dir {r' : Registry} (h : r.Reorders r') {n : String} {d : PackageDir}
    (hd : r.dir n = some d) : ∃ d', r'.dir n = some d' ∧ d.Reorders d' := by
  have hn := h n
  rw [hd] at hn
  generalize r'.dir n = o at hn
  cases hn with
  | some hn => exact ⟨_, rfl, hn⟩

theorem Registry.Reorders.sound {r' : Registry} (h : r.Reorders r') {dep : Dependency} (hs : Sound env key r dep) :
    Sound env key r' dep := by
  constructor
  · obtain ⟨d, doc, pinned, hdir, hpinned, hdoc⟩ := hs.pinned
    obtain ⟨d', hdir', hd⟩ := h.dir hdir
    exact ⟨d', doc, pinned, hdir', hpinned, hd.document_eq.trans hdoc⟩
  · intro vk hvk
    obtain ⟨d, doc, actual, text, sigHex, secret, digest, hdir, hdoc, hstored, hrest⟩ := hs.signed vk hvk
    obtain ⟨d', hdir', hd⟩ := h.dir hdir
    exact ⟨d', doc, actual, text, sigHex, secret, digest, hdir', hd.document_eq.trans hdoc, hd.document.trans hstored,
      hrest⟩

theorem Registry.Reorders.sound_iff {r' : Registry} (h : r.Reorders r') {dep : Dependency} :
    Sound env key r dep ↔ Sound env key r' dep := ⟨h.sound, h.symm.sound⟩

/-- Every requirement the root leads to is sound. -/
def AllSound (env : Env) (r : Registry) (root : Manifest) : Prop :=
  ∀ dep, Reached r root dep → Sound env root.verifyKey r dep

theorem Registry.Reorders.allSound {r' : Registry} {root' : Manifest} (h : r.Reorders r')
    (hroot : root.Reorders root') : AllSound env r root ↔ AllSound env r' root' := by
  unfold AllSound
  simp only [h.reached hroot, h.sound_iff, hroot.verifyKey]

theorem verify_of_allSound (h : AllSound env r root) : verifyDependencyIntegrity env r root = .ok () :=
  verify_ok_iff.2 fun d hd => h d (firsts_reached hd)

/-- The requirements of a package pin one digest, or none. -/
def PinsAgree (r : Registry) (root : Manifest) : Prop :=
  ∀ dep dep', Reached r root dep → Reached r root dep' → dep.1 = dep'.1 → dep.2.digest = dep'.2.digest

theorem Registry.Reorders.pinsAgree {r' : Registry} {root' : Manifest} (h : r.Reorders r')
    (hroot : root.Reorders root') : PinsAgree r root ↔ PinsAgree r' root' := by
  unfold PinsAgree
  simp only [h.reached hroot]

theorem AllSound.pinsAgree (h : AllSound env r root) : PinsAgree r root :=
  fun dep dep' hd hd' hname => (h dep hd).digest_eq (h dep' hd') hname

theorem PinsAgree.allSound (h : PinsAgree r root) (hfirst : ∀ d ∈ firsts r root, Sound env root.verifyKey r d) :
    AllSound env r root := by
  intro dep hd
  obtain ⟨d, hmem, hname⟩ := reached_firsts hd
  exact (hfirst d hmem).of_digest hname.symm (h dep d hd (firsts_reached hmem) hname.symm)

/-! ## The gate -/

/-- In every order of iteration the gate accepts only what is sound, and its verdict is the same. -/
def Complete (env : Env) (r : Registry) (root : Manifest) : Prop :=
  ∀ r' root', r.Reorders r' → root.Reorders root' →
    (verifyDependencyIntegrity env r' root' = .ok () → AllSound env r' root') ∧
    (verifyDependencyIntegrity env r' root' = .ok () ↔ verifyDependencyIntegrity env r root = .ok ())

/-- Some order in which the requirements that are met first are sound. -/
def SomeOrderPasses (env : Env) (r : Registry) (root : Manifest) : Prop :=
  ∃ r' root', r.Reorders r' ∧ root.Reorders root' ∧ ∀ d ∈ firsts r' root', Sound env root'.verifyKey r' d

/-- The gate is complete and the same in every order exactly when the requirements of a package agree, unless no
order passes. -/
theorem complete_iff (env : Env) (r : Registry) (root : Manifest) :
    Complete env r root ↔ (SomeOrderPasses env r root → PinsAgree r root) := by
  constructor
  · rintro h ⟨r', root', hr, hroot, hfirst⟩
    have hsound := (h r' root' hr hroot).1 (verify_ok_iff.2 hfirst)
    exact ((hr.allSound hroot).2 hsound).pinsAgree
  · intro h r' root' hr hroot
    have hall (r'' : Registry) (root'' : Manifest) (hr : r.Reorders r'') (hroot : root.Reorders root'')
        (hok : verifyDependencyIntegrity env r'' root'' = .ok ()) : AllSound env r root := by
      have hfirst := verify_ok_iff.1 hok
      have hagree := (hr.pinsAgree hroot).1 (h ⟨r'', root'', hr, hroot, hfirst⟩)
      exact (hr.allSound hroot).2 (hagree.allSound hfirst)
    refine ⟨fun hok => (hr.allSound hroot).1 (hall r' root' hr hroot hok), fun hok => ?_, fun hok => ?_⟩
    · exact verify_of_allSound (hall r' root' hr hroot hok)
    · exact verify_of_allSound ((hr.allSound hroot).1 (hall r root (.refl r) (.refl root) hok))

end

/-! ## A package that is required twice -/

namespace Twice

def tomlA : List UInt8 := utf8 "[package]\nname = \"a\"\nversion = \"1.0.0\"\n\n[dependencies]\nc = \"0.1.0\"\n".toList

def tomlC : List UInt8 := utf8 "[package]\nname = \"c\"\nversion = \"0.1.0\"\n".toList

def hashA : List UInt8 := [126, 63, 161, 196, 51, 93, 45, 94, 216, 13, 155, 113, 58, 207, 28, 47, 63, 81, 100, 222,
  81, 193, 228, 104, 135, 35, 222, 33, 37, 212, 89, 166]

def hashC : List UInt8 := [118, 214, 138, 55, 129, 164, 75, 92, 18, 75, 83, 187, 39, 208, 68, 82, 47, 174, 10, 206,
  158, 64, 90, 26, 208, 144, 212, 156, 184, 126, 236, 120]

def documentOf (name version : String) (hash : List UInt8) : List UInt8 :=
  utf8 ("\x7b\"files\":[\x7b\"path\":\"mlog.toml\",\"sha256\":\"".toList ++ hexEncode hash ++
    "\"\x7d],\"package\":\x7b\"name\":\"".toList ++ name.toList ++ "\",\"version\":\"".toList ++ version.toList ++
    "\"\x7d\x7d".toList)

def digestA : List UInt8 := [52, 206, 246, 219, 52, 47, 112, 66, 77, 148, 87, 103, 184, 142, 74, 131, 253, 191, 41, 60,
  49, 109, 125, 243, 135, 185, 19, 74, 217, 150, 60, 74]

def digestC : List UInt8 := [251, 33, 97, 22, 34, 168, 212, 130, 175, 105, 98, 166, 191, 135, 99, 184, 34, 49, 130,
  185, 135, 143, 94, 66, 216, 202, 11, 73, 74, 238, 28, 187]

/-- SHA-256 on the four inputs that occur. -/
def sha256 (bytes : List UInt8) : List UInt8 :=
  if bytes = tomlA then hashA
  else if bytes = tomlC then hashC
  else if bytes = documentOf "a" "1.0.0" hashA then digestA
  else if bytes = documentOf "c" "0.1.0" hashC then digestC
  else []

def env : Env := ⟨sha256, fun _ _ => [], fun _ => .error "", fun _ => "", fun name => name⟩

def pinA : String := String.ofList (hexEncode digestA)

def pinC : String := String.ofList (hexEncode digestC)

/-- `a` requires `c` without a pin. -/
def dir : String → Option PackageDir
  | "a" => some ⟨.parsed ⟨"a", "1.0.0", [("c", .bare "0.1.0")], none, by simp⟩, [("mlog.toml", .ok tomlA)], none⟩
  | "c" => some ⟨.parsed ⟨"c", "0.1.0", [], none, by simp⟩, [("mlog.toml", .ok tomlC)], none⟩
  | _ => none

theorem dir_mentioned (n : String) (d : PackageDir) (m : Manifest) (hd : dir n = some d)
    (hm : d.manifest = .parsed m) : ∀ dep ∈ m.dependencies, dep.1 ∈ ["c"] := by
  unfold dir at hd
  split at hd <;> cases hd <;> cases hm <;> simp

def registry : Registry := ⟨dir, ["c"], dir_mentioned⟩

def root : Manifest := ⟨"app", "1.0.0", [("c", .pinned "0.1.0" pinC), ("a", .pinned "1.0.0" pinA)], none, by simp⟩

def root' : Manifest := ⟨"app", "1.0.0", [("a", .pinned "1.0.0" pinA), ("c", .pinned "0.1.0" pinC)], none, by simp⟩

end Twice

/-- The root pins `c`, and `a` does not. One order passes over the requirement of `a`, and the other refuses it. -/
theorem gate_order :
    verifyDependencyIntegrity Twice.env Twice.registry Twice.root = .ok () ∧
      verifyDependencyIntegrity Twice.env Twice.registry Twice.root' ≠ .ok () ∧
      ¬ Complete Twice.env Twice.registry Twice.root := by
  obtain ⟨haccepts, hrefuses⟩ : verifyDependencyIntegrity Twice.env Twice.registry Twice.root = .ok () ∧
      verifyDependencyIntegrity Twice.env Twice.registry Twice.root' ≠ .ok () := by decide +kernel
  refine ⟨haccepts, hrefuses, fun h => ?_⟩
  have hswap : Twice.root.Reorders Twice.root' := ⟨rfl, rfl, rfl, .swap _ _ _⟩
  exact hrefuses ((h _ _ (.refl _) hswap).2.2 haccepts)

end Metalogos.Package
