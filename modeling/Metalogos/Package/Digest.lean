import Metalogos.Lib.Lossy
import Metalogos.Package.Integrity
import Mathlib.Data.List.Infix

/-!
# What a digest document says of its tree

`collect_package_files` gathers the files of a package by their paths, runs of bytes, and `build_digest_document` writes
each path as a text: what is no UTF-8 in it becomes U+FFFD and a backslash a slash. The escaping and the list of the
entries are read back (`unescape_piece`, `entries_inj`), so a document says which paths are shown and the hash of each;
whether it says which files there are is a matter of the names alone.

`digest_document_injective_iff`: of the trees whose paths are of a set, two of one document are the same exactly where
no two paths of the set are shown alike.
-/
namespace Metalogos.Package

open Metalogos.Lib

/-! ## Trees -/

def validName (bytes : List UInt8) : Bool :=
  bytes ≠ [] && !bytes.contains 0x2F && !bytes.contains 0 && bytes ≠ [0x2E] && bytes ≠ [0x2E, 0x2E]

/-- A name in a directory. -/
structure Name where
  bytes : List UInt8
  valid : validName bytes = true
  deriving DecidableEq

abbrev Path := List Name

/-- A file by its path, with its bytes or the text of the error where it cannot be read. -/
abbrev File := Path × Except String (List UInt8)

/-- What stands in a directory. -/
inductive Entries where
  | nil
  | file (name : Name) (content : Except String (List UInt8)) (rest : Entries)
  | dir (name : Name) (entries rest : Entries)

/-- A package's directory, as far as its package goes: `mlog.toml`, where it is a file, and `src`. -/
structure Tree where
  toml : Option (Except String (List UInt8))
  src : Entries

def tomlName : Name := ⟨[0x6D, 0x6C, 0x6F, 0x67, 0x2E, 0x74, 0x6F, 0x6D, 0x6C], by decide⟩

def srcName : Name := ⟨[0x73, 0x72, 0x63], by decide⟩

/-- `file_name`, empty where it is no UTF-8. -/
def fileName (n : Name) : List Char :=
  let text := fromUtf8Lossy n.bytes
  if utf8Bytes text = n.bytes then text else []

def generated (name : List Char) : Bool :=
  name = "mlogpkg.lock".toList || ".mlogpkg.json".toList.isSuffixOf name || ".sig".toList.isSuffixOf name

/-- The files below a directory. In which order the source empties its stack does not show, as it sorts them. -/
def Entries.collect : Entries → Path → List File
  | .nil, _ => []
  | .file name content rest, path =>
    (if generated (fileName name) then [] else [(path ++ [name], content)]) ++ rest.collect path
  | .dir name entries rest, path => entries.collect (path ++ [name]) ++ rest.collect path

/-- The order of paths goes by their components. -/
def pathLe (p q : Path) : Bool := decide (p.map Name.bytes ≤ q.map Name.bytes)

def dedupAfter (p : Path) : List File → List File
  | [] => []
  | f :: rest => if f.1 = p then dedupAfter p rest else f :: dedupAfter f.1 rest

/-- `Vec::dedup`, by the paths. -/
def dedup : List File → List File
  | [] => []
  | f :: rest => f :: dedupAfter f.1 rest

/-- mirrors mlogpkg/src/main.rs:1198-1234 -/
def collectPackageFiles (t : Tree) : List File :=
  dedup (((t.toml.map fun content => ([tomlName], content)).toList ++ t.src.collect [srcName]).mergeSort
    fun f g => pathLe f.1 g.1)

/-- The bytes of a path. -/
def joined (p : Path) : List UInt8 := [0x2F].intercalate (p.map Name.bytes)

/-- The directory as the document is built of it; `readManifest` reads the text of `mlog.toml`. -/
def Tree.packageDir (readManifest : Except String (List UInt8) → ManifestFile) (t : Tree) : PackageDir where
  manifest := (t.toml.map readManifest).getD .missing
  files := (collectPackageFiles t).map fun f => (String.ofList (fromUtf8Lossy (joined f.1)), f.2)
  document := none

/-- A path as the document shows it. -/
def shown (p : Path) : List Char := (fromUtf8Lossy (joined p)).map fun c => if c = '\\' then '/' else c

/-- A path that a file of a package's `src` can have. -/
def SourcePath (p : Path) : Prop :=
  ∃ dirs name, p = srcName :: (dirs ++ [name]) ∧ generated (fileName name) = false

/-- The tree has a file at the path, and the hash of its bytes. -/
def Listed (env : Env) (t : Tree) (p : Path) (hash : List UInt8) : Prop :=
  ∃ bytes, (p, .ok bytes) ∈ collectPackageFiles t ∧ env.sha256 bytes = hash

/-- The same paths, and the same hash at each. -/
def Same (env : Env) (a b : Tree) : Prop := ∀ p hash, Listed env a p hash ↔ Listed env b p hash

/-- The paths of the tree's files, but for `mlog.toml`, are of a set. -/
def Tree.Within (S : Path → Prop) (t : Tree) : Prop := ∀ f ∈ collectPackageFiles t, f.1 = [tomlName] ∨ S f.1

/-! ## What is read back -/

section text

variable {x y r r' : List Char} {a b : List Char}

/-- What one character is written as. -/
def piece (c : Char) : List Char := jsonEscape [c]

/-- One character read back. -/
def unescape : List Char → Option (Char × List Char)
  | [] => none
  | c :: s =>
    if c ≠ '\\' then some (c, s)
    else match s with
      | [] => none
      | d :: s =>
        if d = 'n' then some ('\n', s)
        else if d = 'r' then some ('\r', s)
        else if d = 't' then some ('\t', s)
        else if d = 'u' then
          match s with
          | _ :: _ :: h :: l :: s => (hexValue h).bind fun h => (hexValue l).map fun l => (Char.ofNat (h * 16 + l), s)
          | _ => none
        else some (d, s)

theorem piece_eq (c : Char) : piece c =
    if c = '"' then ['\\', '"']
    else if c = '\\' then ['\\', '\\']
    else if c = '\n' then ['\\', 'n']
    else if c = '\r' then ['\\', 'r']
    else if c = '\t' then ['\\', 't']
    else if c.toNat < 0x20 then ['\\', 'u', '0', '0', hexDigit (c.toNat / 16), hexDigit (c.toNat % 16)]
    else [c] := by
  simp only [piece, jsonEscape, List.flatMap_cons, List.flatMap_nil, List.append_nil]

theorem jsonEscape_cons (c : Char) (s : List Char) : jsonEscape (c :: s) = piece c ++ jsonEscape s := by
  simp only [piece, jsonEscape, List.flatMap_cons, List.flatMap_nil, List.append_nil]

theorem unescape_piece (c : Char) (s : List Char) : unescape (piece c ++ s) = some (c, s) := by
  rw [piece_eq]
  split_ifs with hquote hslash hn hr ht hlow
  · subst hquote
    rfl
  · subst hslash
    rfl
  · subst hn
    rfl
  · subst hr
    rfl
  · subst ht
    rfl
  · have hhigh : hexValue (hexDigit (c.toNat / 16)) = some (c.toNat / 16) := hexValue_digit _ (by omega)
    have hlow' : hexValue (hexDigit (c.toNat % 16)) = some (c.toNat % 16) := hexValue_digit _ (by omega)
    have hback : Char.ofNat (c.toNat / 16 * 16 + c.toNat % 16) = c := by
      rw [Nat.div_add_mod', Char.ofNat_toNat]
    simp [unescape, hhigh, hlow', hback]
  · simp [unescape, hslash]

theorem piece_head (c : Char) (s s' : List Char) : '"' :: s ≠ piece c ++ s' := by
  intro h
  have hread := unescape_piece c s'
  rw [← h] at hread
  have hc : '"' = c := (Prod.mk.inj (Option.some.inj hread)).1
  subst hc
  exact absurd (List.cons.inj h).1 (by decide)

/-- An escaped text ends at the first quote. -/
theorem jsonEscape_quote (a : List Char) :
    ∀ b, jsonEscape a ++ '"' :: r = jsonEscape b ++ '"' :: r' → a = b ∧ r = r' := by
  induction a with
  | nil =>
    intro b h
    cases b with
    | nil => exact ⟨rfl, (List.cons.inj h).2⟩
    | cons c b =>
      rw [jsonEscape_cons, List.append_assoc] at h
      exact absurd h (piece_head c _ _)
  | cons c a ih =>
    intro b h
    cases b with
    | nil =>
      rw [jsonEscape_cons, List.append_assoc] at h
      exact absurd h.symm (piece_head c _ _)
    | cons d b =>
      rw [jsonEscape_cons, jsonEscape_cons, List.append_assoc, List.append_assoc] at h
      have hread := unescape_piece c (jsonEscape a ++ '"' :: r)
      rw [h, unescape_piece] at hread
      obtain ⟨hc, hrest⟩ := Prod.mk.inj (Option.some.inj hread)
      obtain ⟨rfl, hr⟩ := ih b hrest.symm
      exact ⟨by rw [hc], hr⟩

theorem quote_not_mem_hex (bytes : List UInt8) : '"' ∉ hexEncode bytes := by
  have hdigit : ∀ n < 16, '"' ≠ hexDigit n := by decide
  induction bytes with
  | nil => exact List.not_mem_nil
  | cons x bytes ih =>
    have hx := x.toNat_lt
    intro h
    rcases List.mem_cons.1 h with h | h
    · exact hdigit _ (by omega) h
    rcases List.mem_cons.1 h with h | h
    · exact hdigit _ (by omega) h
    · exact ih h

theorem hexEncode_quote {u v : List UInt8}
    (h : hexEncode u ++ '"' :: r = hexEncode v ++ '"' :: r') : u = v ∧ r = r' := by
  have hcut := takeWhile_ne_append (quote_not_mem_hex u) r
  rw [h, takeWhile_ne_append (quote_not_mem_hex v)] at hcut
  have huv : some v = some u := by rw [← hexDecode_encode v, hcut, hexDecode_encode]
  obtain rfl := Option.some.inj huv
  exact ⟨rfl, (List.cons.inj (List.append_cancel_left h)).2⟩

/-- An entry of the document. -/
def entryText (e : List Char × List UInt8) : List Char :=
  "\x7b\"path\":\"".toList ++ jsonEscape e.1 ++ "\",\"sha256\":\"".toList ++ hexEncode e.2 ++ "\"\x7d".toList

/-- A text that ends the path, and one that ends the hash. -/
theorem quotes_assoc (p a m b r : List Char) :
    p ++ a ++ ('"' :: m) ++ b ++ ['"', '\x7d'] ++ r = p ++ (a ++ '"' :: (m ++ (b ++ '"' :: ('\x7d' :: r)))) := by simp

theorem entryText_append (e : List Char × List UInt8) (r : List Char) :
    entryText e ++ r = "\x7b\"path\":\"".toList ++ (jsonEscape e.1 ++
      '"' :: (",\"sha256\":\"".toList ++ (hexEncode e.2 ++ '"' :: ('\x7d' :: r)))) :=
  quotes_assoc _ _ _ _ r

theorem entryText_inj {e e' : List Char × List UInt8}
    (h : entryText e ++ r = entryText e' ++ r') : e = e' ∧ r = r' := by
  rw [entryText_append, entryText_append] at h
  obtain ⟨hpath, h⟩ := jsonEscape_quote _ _ (List.append_cancel_left h)
  obtain ⟨hhash, h⟩ := hexEncode_quote (List.append_cancel_left h)
  exact ⟨Prod.ext hpath hhash, (List.cons.inj h).2⟩

theorem intercalate_cons {α : Type} (c : α) (l : List α) (ls : List (List α)) :
    [c].intercalate (l :: ls) = l ++ ls.flatMap (c :: ·) := by
  induction ls generalizing l with
  | nil => simp
  | cons m ls ih =>
    rw [List.intercalate_cons_cons, ih, List.flatMap_cons]
    simp

/-- The entries behind the first one are read back. -/
theorem entries_tail (es : List (List Char × List UInt8)) :
    ∀ es', (es.map entryText).flatMap (',' :: ·) ++ ']' :: r = (es'.map entryText).flatMap (',' :: ·) ++ ']' :: r' →
      es = es' := by
  induction es with
  | nil =>
    intro es' h
    cases es' with
    | nil => rfl
    | cons e es' => exact absurd (List.cons.inj h).1 (by decide)
  | cons e es ih =>
    intro es' h
    cases es' with
    | nil => exact absurd (List.cons.inj h).1 (by decide)
    | cons e' es' =>
      rw [List.map_cons, List.map_cons, List.flatMap_cons, List.flatMap_cons, List.append_assoc,
        List.append_assoc] at h
      obtain ⟨rfl, hrest⟩ := entryText_inj (List.cons.inj h).2
      rw [ih es' hrest]

theorem entries_inj {es es' : List (List Char × List UInt8)} (hne : es ≠ []) (hne' : es' ≠ [])
    (h : [','].intercalate (es.map entryText) ++ ']' :: r = [','].intercalate (es'.map entryText) ++ ']' :: r') :
    es = es' := by
  match es, es', hne, hne' with
  | e :: es, e' :: es', _, _ =>
    rw [List.map_cons, List.map_cons, intercalate_cons, intercalate_cons, List.append_assoc, List.append_assoc] at h
    obtain ⟨rfl, hrest⟩ := entryText_inj h
    rw [entries_tail es es' hrest]

end text

/-! ## Documents -/

section document

variable {env : Env} {readManifest : Except String (List UInt8) → ManifestFile} {a b t : Tree} {m : Manifest}
  {doc digest digest' : List Char}

/-- The hash of a file; one that cannot be read has none. -/
def hashOf (env : Env) : Except String (List UInt8) → List UInt8
  | .ok bytes => env.sha256 bytes
  | .error _ => []

/-- What the document says of a tree. -/
def told (env : Env) (t : Tree) : List (List Char × List UInt8) :=
  (collectPackageFiles t).map fun f => (shown f.1, hashOf env f.2)

def documentOf (m : Manifest) (entries : List (List Char)) : List Char :=
  "\x7b\"files\":[".toList ++ [','].intercalate entries ++ "],\"package\":\x7b\"name\":\"".toList ++
    jsonEscape m.name.toList ++ "\",\"version\":\"".toList ++ jsonEscape m.version.toList ++ "\"\x7d\x7d".toList

theorem fileEntry_shown (p : Path) (content : Except String (List UInt8)) (e : List Char) :
    fileEntry env (String.ofList (fromUtf8Lossy (joined p)), content) = .ok e ↔
      (∃ bytes, content = .ok bytes) ∧ e = entryText (shown p, hashOf env content) := by
  cases content with
  | error text =>
    refine ⟨fun h => (nomatch h), fun h => ?_⟩
    obtain ⟨⟨bytes, hbytes⟩, _⟩ := h
    cases hbytes
  | ok bytes =>
    simp only [fileEntry, String.toList_ofList, Except.ok.injEq, exists_eq', true_and]
    exact eq_comm

theorem mapM_fileEntry {files : List File} {entries : List (List Char)} :
    (files.map fun f => (String.ofList (fromUtf8Lossy (joined f.1)), f.2)).mapM (fileEntry env) = .ok entries ↔
      (∀ f ∈ files, ∃ bytes, f.2 = .ok bytes) ∧
        entries = (files.map fun f => (shown f.1, hashOf env f.2)).map entryText := by
  rw [mapM_ok, List.map_map, List.map_map]
  induction files generalizing entries with
  | nil =>
    rw [List.map_nil, List.map_nil, eq_comm, List.map_eq_nil_iff]
    exact ⟨fun h => ⟨nofun, h⟩, And.right⟩
  | cons f files ih =>
    rw [List.map_cons, List.map_cons, List.forall_mem_cons]
    cases entries with
    | nil => exact ⟨nofun, fun h => nomatch h.2⟩
    | cons e entries =>
      rw [List.map_cons, List.cons.injEq, List.cons.injEq, ih, Function.comp_apply, fileEntry_shown]
      exact ⟨fun ⟨⟨hf, he⟩, hfs, hes⟩ => ⟨⟨hf, hfs⟩, he, hes⟩, fun ⟨⟨hf, hfs⟩, he, hes⟩ => ⟨⟨hf, he⟩, hfs, hes⟩⟩

/-- The document of a tree all of whose files can be read. -/
theorem build_ok_iff : (∃ digest, buildDigestDocument env (t.packageDir readManifest) = .ok (doc, digest)) ↔
    ∃ m, (t.packageDir readManifest).manifest = .parsed m ∧ collectPackageFiles t ≠ [] ∧
      (∀ f ∈ collectPackageFiles t, ∃ bytes, f.2 = .ok bytes) ∧ doc = documentOf m ((told env t).map entryText) := by
  have hempty : (t.packageDir readManifest).files.isEmpty = true ↔ collectPackageFiles t = [] := by
    rw [List.isEmpty_iff, Tree.packageDir, List.map_eq_nil_iff]
  unfold buildDigestDocument
  cases hmanifest : (t.packageDir readManifest).manifest with
  | missing => exact ⟨fun ⟨_, h⟩ => (nomatch h), fun ⟨_, h, _⟩ => (nomatch h)⟩
  | unreadable => exact ⟨fun ⟨_, h⟩ => (nomatch h), fun ⟨_, h, _⟩ => (nomatch h)⟩
  | parsed m =>
    dsimp only
    split_ifs with hfiles
    · exact ⟨fun ⟨_, h⟩ => (nomatch h), fun ⟨_, _, h, _⟩ => absurd (hempty.1 hfiles) h⟩
    · simp only [bind_ok, ManifestFile.parsed.injEq, Except.ok.injEq, Prod.mk.injEq]
      constructor
      · rintro ⟨digest, entries, hentries, hdoc, _⟩
        obtain ⟨hread, rfl⟩ := mapM_fileEntry.1 hentries
        exact ⟨m, rfl, fun h => hfiles (hempty.2 h), hread, hdoc.symm⟩
      · rintro ⟨_, rfl, _, hread, hdoc⟩
        exact ⟨_, _, mapM_fileEntry.2 ⟨hread, rfl⟩, hdoc.symm, rfl⟩

/-- What stands behind the entries. -/
def documentEnd (m : Manifest) : List Char :=
  ",\"package\":\x7b\"name\":\"".toList ++ jsonEscape m.name.toList ++ "\",\"version\":\"".toList ++
    jsonEscape m.version.toList ++ "\"\x7d\x7d".toList

theorem bracket_assoc (p x m a b c d : List Char) :
    p ++ x ++ (']' :: m) ++ a ++ b ++ c ++ d = p ++ (x ++ ']' :: (m ++ a ++ b ++ c ++ d)) := by simp

theorem documentOf_eq (m : Manifest) (entries : List (List Char)) :
    documentOf m entries = "\x7b\"files\":[".toList ++ ([','].intercalate entries ++ ']' :: documentEnd m) :=
  bracket_assoc _ _ _ _ _ _ _

/-- One document tells one thing. -/
theorem told_eq (ha : buildDigestDocument env (a.packageDir readManifest) = .ok (doc, digest))
    (hb : buildDigestDocument env (b.packageDir readManifest) = .ok (doc, digest')) : told env a = told env b := by
  obtain ⟨m, _, hne, _, hdoc⟩ := build_ok_iff.1 ⟨digest, ha⟩
  obtain ⟨m', _, hne', _, hdoc'⟩ := build_ok_iff.1 ⟨digest', hb⟩
  rw [hdoc, documentOf_eq, documentOf_eq] at hdoc'
  exact entries_inj (fun h => hne (List.map_eq_nil_iff.1 h)) (fun h => hne' (List.map_eq_nil_iff.1 h))
    (List.append_cancel_left hdoc')

end document

/-! ## Paths -/

section paths

variable {S : Path → Prop} {a b t : Tree} {f : File} {p q : Path}

theorem shown_src (rest : Path) : ∃ s, shown (srcName :: rest) = 's' :: s := by
  have hjoined : ∃ bytes, joined (srcName :: rest) = 0x73 :: bytes := by
    rw [joined, List.map_cons, intercalate_cons]
    exact ⟨_, rfl⟩
  obtain ⟨bytes, hbytes⟩ := hjoined
  rw [shown, hbytes, lossy_cons (by decide)]
  exact ⟨_, rfl⟩

theorem shown_toml_ne (hp : SourcePath p) : shown [tomlName] ≠ shown p := by
  obtain ⟨dirs, name, rfl, _⟩ := hp
  obtain ⟨s, hs⟩ := shown_src (dirs ++ [name])
  rw [hs]
  intro h
  have hhead : (shown [tomlName]).head? = some 's' := by rw [h]; rfl
  exact absurd hhead (by decide)

theorem collect_source (e : Entries) :
    ∀ path, f ∈ e.collect path → ∃ dirs name, f.1 = path ++ (dirs ++ [name]) ∧ generated (fileName name) = false := by
  induction e with
  | nil => exact fun _ h => nomatch h
  | file name content rest ih =>
    intro path h
    rcases List.mem_append.1 h with h | h
    · split_ifs at h with hgen
      · cases h
      · rw [List.mem_singleton.1 h]
        exact ⟨[], name, rfl, Bool.eq_false_iff.2 hgen⟩
    · exact ih path h
  | dir name entries rest ih ih' =>
    intro path h
    rcases List.mem_append.1 h with h | h
    · obtain ⟨dirs, last, hf, hgen⟩ := ih _ h
      exact ⟨name :: dirs, last, by rw [hf]; simp, hgen⟩
    · exact ih' path h

theorem mem_of_dedupAfter (files : List File) : ∀ p, f ∈ dedupAfter p files → f ∈ files := by
  induction files with
  | nil => exact fun _ h => h
  | cons g files ih =>
    intro p h
    rw [dedupAfter] at h
    split_ifs at h with hg
    · exact List.mem_cons_of_mem g (ih p h)
    · rcases List.mem_cons.1 h with rfl | h
      · exact List.mem_cons_self
      · exact List.mem_cons_of_mem g (ih g.1 h)

theorem mem_of_dedup {files : List File} (h : f ∈ dedup files) : f ∈ files := by
  cases files with
  | nil => exact h
  | cons g files =>
    rcases List.mem_cons.1 h with rfl | h
    · exact List.mem_cons_self
    · exact List.mem_cons_of_mem g (mem_of_dedupAfter files g.1 h)

/-- A file of a package is `mlog.toml` or below `src`. -/
theorem collect_path (h : f ∈ collectPackageFiles t) : f.1 = [tomlName] ∨ SourcePath f.1 := by
  have hmem := List.mem_mergeSort.1 (mem_of_dedup h)
  rcases List.mem_append.1 hmem with h | h
  · obtain ⟨content, _, rfl⟩ := Option.map_eq_some_iff.1 (Option.mem_toList.1 h)
    exact .inl rfl
  · obtain ⟨dirs, name, hf, hgen⟩ := collect_source t.src _ h
    exact .inr ⟨dirs, name, hf, hgen⟩

/-! ## Two trees that are shown alike -/

/-- A directory with one file below it. -/
def chain (name : Name) (content : Except String (List UInt8)) : List Name → Entries
  | [] => .file name content .nil
  | d :: dirs => .dir d (chain name content dirs) .nil

theorem collect_chain {name : Name} (hgen : generated (fileName name) = false) (content : Except String (List UInt8))
    (dirs : List Name) : ∀ path, (chain name content dirs).collect path = [(path ++ (dirs ++ [name]), content)] := by
  induction dirs with
  | nil =>
    intro path
    simp [chain, Entries.collect, hgen]
  | cons d dirs ih =>
    intro path
    simp [chain, Entries.collect, ih]

def single (bytes : List UInt8) (dirs : List Name) (name : Name) : Tree :=
  ⟨some (.ok bytes), chain name (.ok bytes) dirs⟩

theorem toml_le_src (rest : Path) : pathLe [tomlName] (srcName :: rest) = true := by
  rw [pathLe, decide_eq_true_eq, List.map_cons, List.map_cons, ← List.not_lt, List.cons_lt_cons_iff]
  rintro (h | ⟨h, _⟩)
  · exact absurd h (by decide)
  · exact absurd h (by decide)

theorem collect_single {name : Name} (hgen : generated (fileName name) = false) (bytes : List UInt8)
    (dirs : List Name) : collectPackageFiles (single bytes dirs name) =
      [([tomlName], .ok bytes), (srcName :: (dirs ++ [name]), .ok bytes)] := by
  have hsorted : [(([tomlName] : Path), (Except.ok bytes : Except String (List UInt8))),
      (srcName :: (dirs ++ [name]), .ok bytes)].mergeSort (fun f g => pathLe f.1 g.1) =
        [([tomlName], .ok bytes), (srcName :: (dirs ++ [name]), .ok bytes)] := by
    refine List.mergeSort_of_pairwise ?_
    simp [toml_le_src]
  have hne : ¬ srcName :: (dirs ++ [name]) = [tomlName] := fun h => absurd (List.cons.inj h).1 (by decide)
  rw [collectPackageFiles, single, collect_chain hgen]
  simp only [Option.map_some, Option.toList_some, List.cons_append, List.nil_append]
  rw [hsorted, dedup, dedupAfter, if_neg hne, dedupAfter]

end paths

section collision

variable {env : Env} {readManifest : Except String (List UInt8) → ManifestFile} {m : Manifest} {bytes : List UInt8}
  {dirs dirs' : List Name} {name name' : Name}

theorem build_single (hm : readManifest (.ok bytes) = .parsed m) (hgen : generated (fileName name) = false) :
    ∃ digest, buildDigestDocument env ((single bytes dirs name).packageDir readManifest) =
      .ok (documentOf m ([(shown [tomlName], env.sha256 bytes),
        (shown (srcName :: (dirs ++ [name])), env.sha256 bytes)].map entryText), digest) := by
  refine build_ok_iff.2 ⟨m, hm, ?_, ?_, ?_⟩
  · rw [collect_single hgen]
    exact List.cons_ne_nil _ _
  · rw [collect_single hgen]
    simp
  · rw [told, collect_single hgen]
    rfl

theorem not_same_single (hgen : generated (fileName name) = false) (hgen' : generated (fileName name') = false)
    (hne : srcName :: (dirs ++ [name]) ≠ srcName :: (dirs' ++ [name'])) :
    ¬ Same env (single bytes dirs name) (single bytes dirs' name') := by
  intro h
  have hlisted : Listed env (single bytes dirs name) (srcName :: (dirs ++ [name])) (env.sha256 bytes) :=
    ⟨bytes, by rw [collect_single hgen]; simp, rfl⟩
  obtain ⟨bytes', hmem, _⟩ := (h _ _).1 hlisted
  rw [collect_single hgen'] at hmem
  rcases List.mem_cons.1 hmem with heq | hmem
  · exact absurd (List.cons.inj (Prod.mk.inj heq).1).1 (by decide)
  · exact hne (Prod.mk.inj (List.mem_singleton.1 hmem)).1

end collision

/-- Of the trees whose paths are of a set, two with one document have the same paths and hashes exactly where no two
paths of the set are shown alike. -/
theorem digest_document_injective_iff (env : Env) (readManifest : Except String (List UInt8) → ManifestFile)
    {bytes : List UInt8} {m : Manifest} (hm : readManifest (.ok bytes) = .parsed m) (S : Path → Prop) :
    (∀ a b : Tree, a.Within S → b.Within S → ∀ doc digest digest',
      buildDigestDocument env (a.packageDir readManifest) = .ok (doc, digest) →
      buildDigestDocument env (b.packageDir readManifest) = .ok (doc, digest') → Same env a b) ↔
    ∀ p q, S p → S q → SourcePath p → SourcePath q → shown p = shown q → p = q := by
  constructor
  · rintro h p q hp hq ⟨dirs, name, rfl, hgen⟩ ⟨dirs', name', rfl, hgen'⟩ hshown
    by_contra hne
    obtain ⟨digest, hdoc⟩ := @build_single env readManifest m bytes dirs name hm hgen
    obtain ⟨digest', hdoc'⟩ := @build_single env readManifest m bytes dirs' name' hm hgen'
    rw [← hshown] at hdoc'
    refine not_same_single hgen hgen' hne (h _ _ (fun f hf => ?_) (fun f hf => ?_) _ _ _ hdoc hdoc')
    · rw [collect_single hgen] at hf
      rcases List.mem_cons.1 hf with rfl | hf
      · exact .inl rfl
      · rw [List.mem_singleton.1 hf]
        exact .inr hp
    · rw [collect_single hgen'] at hf
      rcases List.mem_cons.1 hf with rfl | hf
      · exact .inl rfl
      · rw [List.mem_singleton.1 hf]
        exact .inr hq
  · intro h a b ha hb doc digest digest' hdoc hdoc'
    have htold := told_eq hdoc hdoc'
    have hpaths : ∀ {f g : File}, f ∈ collectPackageFiles a → g ∈ collectPackageFiles b → shown f.1 = shown g.1 →
        f.1 = g.1 := by
      intro f g hf hg hshown
      by_cases hft : f.1 = [tomlName]
      · by_cases hgt : g.1 = [tomlName]
        · rw [hft, hgt]
        · exact absurd (hft ▸ hshown) (shown_toml_ne ((collect_path hg).resolve_left hgt))
      · by_cases hgt : g.1 = [tomlName]
        · exact absurd (hgt ▸ hshown.symm) (shown_toml_ne ((collect_path hf).resolve_left hft))
        · exact h _ _ ((ha f hf).resolve_left hft) ((hb g hg).resolve_left hgt) ((collect_path hf).resolve_left hft)
            ((collect_path hg).resolve_left hgt) hshown
    obtain ⟨_, _, _, hread, _⟩ := build_ok_iff.1 ⟨digest, hdoc⟩
    obtain ⟨_, _, _, hread', _⟩ := build_ok_iff.1 ⟨digest', hdoc'⟩
    refine fun p hash => ⟨fun ⟨bytes, hmem, hhash⟩ => ?_, fun ⟨bytes, hmem, hhash⟩ => ?_⟩
    · have hin : (shown p, env.sha256 bytes) ∈ told env b :=
        htold ▸ List.mem_map.2 ⟨(p, .ok bytes), hmem, rfl⟩
      obtain ⟨g, hg, heq⟩ := List.mem_map.1 hin
      obtain ⟨hshown, hsame⟩ := Prod.mk.inj heq
      obtain ⟨bytes', hbytes⟩ := hread' g hg
      have hpath : p = g.1 := hpaths hmem hg hshown.symm
      rw [hbytes] at hsame
      exact ⟨bytes', by rw [hpath, ← hbytes]; exact hg, hsame.trans hhash⟩
    · have hin : (shown p, env.sha256 bytes) ∈ told env a :=
        htold.symm ▸ List.mem_map.2 ⟨(p, .ok bytes), hmem, rfl⟩
      obtain ⟨g, hg, heq⟩ := List.mem_map.1 hin
      obtain ⟨hshown, hsame⟩ := Prod.mk.inj heq
      obtain ⟨bytes', hbytes⟩ := hread g hg
      have hpath : g.1 = p := hpaths hg hmem hshown
      rw [hbytes] at hsame
      exact ⟨bytes', by rw [← hpath, ← hbytes]; exact hg, hsame.trans hhash⟩

/-! ## A backslash in a name -/

namespace Backslash

def toml : List UInt8 := utf8 "[package]\nname = \"a\"\nversion = \"1.0.0\"\n".toList

def manifest : Manifest := ⟨"a", "1.0.0", [], none, List.nodup_nil⟩

def readManifest (content : Except String (List UInt8)) : ManifestFile :=
  match content with
  | .ok bytes => if bytes = toml then .parsed manifest else .unreadable
  | .error _ => .unreadable

def hash : List UInt8 := [43, 157, 251, 245, 198, 25, 43, 10, 198, 152, 230, 205, 113, 128, 240, 252, 82, 111, 184,
  37, 62, 144, 196, 227, 233, 12, 53, 84, 238, 137, 69, 185]

/-- Of `mlog.toml` and `src/a/b`, both with the text of the manifest. -/
def document : List Char :=
  documentOf manifest ([("mlog.toml".toList, hash), ("src/a/b".toList, hash)].map entryText)

def digest : List UInt8 := [65, 195, 105, 207, 37, 143, 219, 26, 143, 146, 186, 62, 119, 175, 69, 139, 35, 34, 254,
  168, 237, 191, 204, 27, 157, 251, 121, 126, 56, 130, 116, 252]

/-- SHA-256 on the two inputs that occur. -/
def sha256 (bytes : List UInt8) : List UInt8 :=
  if bytes = toml then hash
  else if bytes = utf8 document then digest
  else []

def env : Env := ⟨sha256, fun _ _ => [], fun _ => .error "", fun _ => "", fun name => name⟩

theorem read_toml : readManifest (.ok toml) = .parsed manifest := by simp [readManifest]

def nameA : Name := ⟨[0x61], by decide⟩

def nameB : Name := ⟨[0x62], by decide⟩

def nameBoth : Name := ⟨[0x61, 0x5C, 0x62], by decide⟩

end Backslash

theorem digest_document_injective_all :
    (∀ a b : Tree, a.Within (fun _ => True) → b.Within (fun _ => True) → ∀ doc digest digest',
      buildDigestDocument Backslash.env (a.packageDir Backslash.readManifest) = .ok (doc, digest) →
      buildDigestDocument Backslash.env (b.packageDir Backslash.readManifest) = .ok (doc, digest') →
      Same Backslash.env a b) ↔
    ∀ p q, True → True → SourcePath p → SourcePath q → shown p = shown q → p = q :=
  @digest_document_injective_iff Backslash.env Backslash.readManifest Backslash.toml Backslash.manifest
    Backslash.read_toml fun _ => True

/-- The file `src/a\b` and the file `b` in `src/a` have one document. -/
theorem digest_document_collides : ¬ ∀ (env : Env) (readManifest : Except String (List UInt8) → ManifestFile)
    (a b : Tree) (doc digest digest' : List Char),
    buildDigestDocument env (a.packageDir readManifest) = .ok (doc, digest) →
    buildDigestDocument env (b.packageDir readManifest) = .ok (doc, digest') → Same env a b := by
  intro h
  have hboth : generated (fileName Backslash.nameBoth) = false := by decide
  have hb : generated (fileName Backslash.nameB) = false := by decide
  obtain ⟨digest, hdoc⟩ := @build_single Backslash.env Backslash.readManifest Backslash.manifest Backslash.toml []
    Backslash.nameBoth Backslash.read_toml hboth
  obtain ⟨digest', hdoc'⟩ := @build_single Backslash.env Backslash.readManifest Backslash.manifest Backslash.toml
    [Backslash.nameA] Backslash.nameB Backslash.read_toml hb
  have hshown : shown (srcName :: ([] ++ [Backslash.nameBoth])) =
      shown (srcName :: ([Backslash.nameA] ++ [Backslash.nameB])) := by decide
  rw [← hshown] at hdoc'
  exact not_same_single hboth hb (by decide) (h _ _ _ _ _ _ _ hdoc hdoc')

end Metalogos.Package
