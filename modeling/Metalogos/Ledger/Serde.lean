import Mathlib.Tactic.IntervalCases
import Metalogos.Ledger.Record

/-!
# `serde_json` on ledger records

The two shapes the ledger serializes, as `serde_json::to_string` writes them: fields in declaration
order, strings escaped, an empty `new_pubkey` skipped; and a reader of that form. `serde_sound` is
the round trip the exporter and the verifier rely on, `serde_canonical` what the hash of a body does.
-/
namespace Metalogos.Ledger

open Metalogos.Lib

/-! ## Strings -/

/-- The character after the backslash in the two-character escapes. -/
def shortEscape (c : Char) : Option Char :=
  match c.toNat with
  | 34 => some '"'
  | 92 => some '\\'
  | 8 => some 'b'
  | 9 => some 't'
  | 10 => some 'n'
  | 12 => some 'f'
  | 13 => some 'r'
  | _ => none

def escapeChar (c : Char) : List Char :=
  match shortEscape c with
  | some e => ['\\', e]
  | none =>
    if c.toNat < 32 then ['\\', 'u', '0', '0', hexDigit (c.toNat / 16), hexDigit (c.toNat % 16)]
    else [c]

def escape (s : List Char) : List Char := s.flatMap escapeChar

/-- The character a two-character escape stands for. -/
def shortUnescape (e : Char) : Option Char :=
  match e with
  | '"' => some '"'
  | '\\' => some '\\'
  | 'b' => some (Char.ofNat 8)
  | 't' => some '\t'
  | 'n' => some '\n'
  | 'f' => some (Char.ofNat 12)
  | 'r' => some '\r'
  | _ => none

/-- Up to the closing quote. -/
def readString : List Char → Option (List Char × List Char)
  | [] => none
  | '"' :: rest => some ([], rest)
  | '\\' :: 'u' :: _ :: _ :: a :: b :: rest => do
    let h ← hexValue a
    let l ← hexValue b
    let (s, rest) ← readString rest
    some (Char.ofNat (h * 16 + l) :: s, rest)
  | '\\' :: e :: rest => do
    let c ← shortUnescape e
    let (s, rest) ← readString rest
    some (c :: s, rest)
  | c :: rest => do
    let (s, rest) ← readString rest
    some (c :: s, rest)

theorem bind_cons (c : Char) (r : Option (List Char × List Char)) :
    (r.bind fun p => some (c :: p.1, p.2)) = r.map fun p => (c :: p.1, p.2) := by
  cases r <;> rfl

/-- One escaped character is read back. -/
theorem readString_escapeChar (c : Char) (rest : List Char) :
    readString (escapeChar c ++ rest) = (readString rest).map fun p => (c :: p.1, p.2) := by
  by_cases hlt : c.toNat < 32
  · -- the control characters, one by one
    have hctl : ∀ n < 32, readString (escapeChar (Char.ofNat n) ++ rest) =
        (readString rest).map fun p => (Char.ofNat n :: p.1, p.2) := by
      intro n hn
      interval_cases n <;> exact bind_cons _ (readString rest)
    have h := hctl c.toNat hlt
    rwa [Char.ofNat_toNat] at h
  by_cases hq : c = '"'
  · subst hq
    cases hr : readString rest <;> simp [escapeChar, shortEscape, readString, shortUnescape, hr]
  by_cases hb : c = '\\'
  · subst hb
    cases hr : readString rest <;> simp [escapeChar, shortEscape, readString, shortUnescape, hr]
  have hne {n : Nat} {d : Char} (hd : d.toNat = n) (hc : c ≠ d) : c.toNat ≠ n :=
    fun h => hc (Char.toNat_inj.1 (h.trans hd.symm))
  have hshort : shortEscape c = none := by
    have h34 : c.toNat ≠ 34 := hne rfl hq
    have h92 : c.toNat ≠ 92 := hne rfl hb
    unfold shortEscape
    split <;> first | rfl | omega
  have hesc : escapeChar c = [c] := by simp [escapeChar, hshort, hlt]
  rw [hesc, List.singleton_append]
  cases hr : readString rest <;> simp [readString, hr, hb]

theorem readString_escape (s rest : List Char) :
    readString (escape s ++ '"' :: rest) = some (s, rest) := by
  induction s with
  | nil => rfl
  | cons c s ih =>
    rw [escape, List.flatMap_cons, List.append_assoc, readString_escapeChar]
    show (readString (escape s ++ '"' :: rest)).map _ = _
    rw [ih]
    rfl

/-! ## Numbers and fixed text -/

def readNat (s : List Char) : Nat × List Char :=
  (Nat.ofDigitChars 10 (s.takeWhile Char.isDigit) 0, s.dropWhile Char.isDigit)

theorem readNat_digits (n : Nat) {c : Char} (rest : List Char) (hc : c.isDigit = false) :
    readNat (Nat.toDigits 10 n ++ c :: rest) = (n, c :: rest) := by
  have hd : ∀ d ∈ Nat.toDigits 10 n, d.isDigit = true :=
    fun d h => Nat.isDigit_of_mem_toDigits (by decide) (by decide) h
  rw [readNat, List.takeWhile_append_of_pos hd, List.dropWhile_append_of_pos hd]
  simp [hc]

/-- Fixed text in front. -/
def expect (lit : List Char) (s : List Char) : Option (List Char) :=
  if lit.isPrefixOf s then some (s.drop lit.length) else none

theorem expect_append (lit rest : List Char) : expect lit (lit ++ rest) = some rest := by
  have h : lit.isPrefixOf (lit ++ rest) = true := List.isPrefixOf_iff_prefix.2 (List.prefix_append _ _)
  simp [expect, h]

/-! ## Records -/

/-- `,"name":"` -/
def fieldHead (name : String) : List Char := ",\"".toList ++ name.toList ++ "\":\"".toList

def field (name v : String) : List Char := fieldHead name ++ (escape v.toList ++ ['"'])

/-- `skip_serializing_if`. -/
def newPubkeyField (v : String) : List Char := if v = "" then [] else field "new_pubkey" v

def head (seq ts : Nat) : List Char :=
  "\x7b\"seq\":".toList ++ (Nat.toDigits 10 seq ++ (",\"ts\":".toList ++ Nat.toDigits 10 ts))

/-- The canonical body. -/
def bodyJson (b : LedgerBody) : String :=
  String.ofList (head b.seq b.ts ++ field "kind" b.kind ++ field "actor" b.actor
    ++ field "action" b.action ++ field "scope" b.scope ++ field "args_hash" b.argsHash
    ++ field "prev_hash" b.prevHash ++ (b.newPubkey.map (field "new_pubkey")).getD []
    ++ field "key_id" b.keyId ++ field "pubkey" b.pubkey ++ ['\x7d'])

/-- What stands between the numbers and the end of a record. -/
def recordFields (r : LedgerRecord) : List Char :=
  field "kind" r.kind ++ (field "actor" r.actor ++ (field "action" r.action ++
    (field "scope" r.scope ++ (field "args_hash" r.argsHash ++ (field "prev_hash" r.prevHash ++
      (newPubkeyField r.newPubkey ++ (field "key_id" r.keyId ++ (field "pubkey" r.pubkey ++
        (field "hash" r.hash ++ (field "sig" r.sig ++ ['\x7d']))))))))))

def recordJson (r : LedgerRecord) : String := String.ofList (head r.seq r.ts ++ recordFields r)

def readField (name : String) (s : List Char) : Option (String × List Char) := do
  let s ← expect (fieldHead name) s
  let (v, s) ← readString s
  some (String.ofList v, s)

def readNewPubkey (s : List Char) : Option (String × List Char) :=
  match expect (fieldHead "new_pubkey") s with
  | none => some ("", s)
  | some _ => readField "new_pubkey" s

def readHead (s : List Char) : Option (Nat × Nat × List Char) := do
  let s ← expect "\x7b\"seq\":".toList s
  let seq := readNat s
  let s ← expect ",\"ts\":".toList seq.2
  let ts := readNat s
  some (seq.1, ts.1, ts.2)

def readFields (seq ts : Nat) (s : List Char) : Option LedgerRecord := do
  let (kind, s) ← readField "kind" s
  let (actor, s) ← readField "actor" s
  let (action, s) ← readField "action" s
  let (scope, s) ← readField "scope" s
  let (argsHash, s) ← readField "args_hash" s
  let (prevHash, s) ← readField "prev_hash" s
  let (newPubkey, s) ← readNewPubkey s
  let (keyId, s) ← readField "key_id" s
  let (pubkey, s) ← readField "pubkey" s
  let (hash, s) ← readField "hash" s
  let (sig, s) ← readField "sig" s
  if s = ['\x7d'] then
    some ⟨seq, ts, kind, actor, action, scope, argsHash, prevHash, newPubkey, keyId, pubkey, hash, sig⟩
  else none

def readRecord (s : List Char) : Option LedgerRecord := do
  let (seq, ts, s) ← readHead s
  readFields seq ts s

/-- `serde_json` on the ledger's two shapes. -/
def serde : Json where
  body := bodyJson
  record := recordJson
  parse s := match readRecord s.toList with
    | some r => .ok r
    | none => .error "not in canonical form"

theorem readField_field (name v : String) (rest : List Char) :
    readField name (field name v ++ rest) = some (v, rest) := by
  rw [readField, field, List.append_assoc, expect_append, List.append_assoc]
  show (readString (escape v.toList ++ '"' :: rest)).bind _ = _
  rw [readString_escape]
  simp

theorem readNewPubkey_field (v key : String) (rest : List Char) :
    readNewPubkey (newPubkeyField v ++ (field "key_id" key ++ rest)) =
      some (v, field "key_id" key ++ rest) := by
  unfold newPubkeyField
  split_ifs with hv
  · subst hv
    rfl
  · rw [readNewPubkey, show expect (fieldHead "new_pubkey") (field "new_pubkey" v ++ _) = some _ by
      rw [field, List.append_assoc, expect_append]]
    exact readField_field "new_pubkey" v _

theorem readHead_head (seq ts : Nat) {c : Char} (rest : List Char) (hc : c.isDigit = false) :
    readHead (head seq ts ++ c :: rest) = some (seq, ts, c :: rest) := by
  have hseq : readNat (Nat.toDigits 10 seq ++ (",\"ts\":".toList ++ (Nat.toDigits 10 ts ++ c :: rest))) =
    (seq, ",\"ts\":".toList ++ (Nat.toDigits 10 ts ++ c :: rest)) := readNat_digits seq _ (by decide)
  unfold readHead head
  rw [List.append_assoc, expect_append, List.append_assoc, List.append_assoc]
  show (expect ",\"ts\":".toList (readNat (Nat.toDigits 10 seq ++ _)).2).bind _ = _
  rw [hseq, expect_append]
  show some (_, (readNat (Nat.toDigits 10 ts ++ c :: rest)).1, _) = _
  rw [readNat_digits ts _ hc]

theorem readFields_recordFields (r : LedgerRecord) : readFields r.seq r.ts (recordFields r) = some r := by
  unfold readFields recordFields
  have hstep {β : Type} (name v : String) (rest : List Char) (k : String × List Char → Option β) :
      (readField name (field name v ++ rest) >>= k) = k (v, rest) := by
    rw [readField_field]
    rfl
  iterate 6
    rw [hstep]
    dsimp only
  rw [readNewPubkey_field]
  iterate 4
    refine (hstep _ _ _ _).trans ?_
    dsimp only
  exact if_pos rfl

theorem readRecord_recordJson (r : LedgerRecord) :
    readRecord (head r.seq r.ts ++ recordFields r) = some r := by
  obtain ⟨rest, hrest⟩ : ∃ rest, recordFields r = ',' :: rest := ⟨_, rfl⟩
  rw [readRecord, hrest, readHead_head r.seq r.ts rest (by decide), ← hrest]
  exact readFields_recordFields r

/-! ## The text of a body -/

theorem field_inj {name v v' : String} {rest rest' : List Char}
    (h : field name v ++ rest = field name v' ++ rest') : v = v' ∧ rest = rest' := by
  have hread := readField_field name v rest
  rw [h, readField_field] at hread
  obtain ⟨hv, hrest⟩ := Prod.mk.inj (Option.some.inj hread)
  exact ⟨hv.symm, hrest.symm⟩

theorem field_eq (name v : String) : ∃ rest, field name v = ',' :: rest := ⟨_, rfl⟩

theorem head_inj {seq ts seq' ts' : Nat} {name v v' : String} {rest rest' : List Char}
    (h : head seq ts ++ (field name v ++ rest) = head seq' ts' ++ (field name v' ++ rest')) :
    seq = seq' ∧ ts = ts' ∧ field name v ++ rest = field name v' ++ rest' := by
  obtain ⟨t, ht⟩ := field_eq name v
  obtain ⟨t', ht'⟩ := field_eq name v'
  rw [ht, ht', List.cons_append, List.cons_append] at h ⊢
  have hread := readHead_head seq ts (t ++ rest) (c := ',') (by decide)
  rw [h, readHead_head seq' ts' (t' ++ rest') (by decide)] at hread
  obtain ⟨hseq, hts, hrest⟩ := by simpa only [Option.some.injEq, Prod.mk.injEq] using hread
  exact ⟨hseq.symm, hts.symm, hrest.symm⟩

/-- The names of the two fields differ. -/
theorem keyId_ne_newPubkey (v v' : String) (rest rest' : List Char) :
    field "key_id" v ++ rest ≠ field "new_pubkey" v' ++ rest' := by
  intro h
  have hthird := congrArg (fun s => s[2]?) h
  exact absurd (Option.some.inj hthird) (by decide)

/-- Whether a body has a new key shows. -/
theorem newPubkey_inj {o o' : Option String} {v v' : String} {rest rest' : List Char}
    (h : (o.map (field "new_pubkey")).getD [] ++ (field "key_id" v ++ rest) =
      (o'.map (field "new_pubkey")).getD [] ++ (field "key_id" v' ++ rest')) :
    o = o' ∧ field "key_id" v ++ rest = field "key_id" v' ++ rest' := by
  cases o with
  | none =>
    cases o' with
    | none => exact ⟨rfl, h⟩
    | some k' => exact absurd h (keyId_ne_newPubkey v k' rest _)
  | some k =>
    cases o' with
    | none => exact absurd h.symm (keyId_ne_newPubkey v' k rest' _)
    | some k' =>
      obtain ⟨rfl, hrest⟩ := field_inj h
      exact ⟨rfl, hrest⟩

theorem bodyJson_injective : Function.Injective bodyJson := by
  intro b b' h
  have htext := String.ofList_injective h
  simp only [List.append_assoc] at htext
  obtain ⟨hseq, hts, htext⟩ := head_inj htext
  obtain ⟨hkind, htext⟩ := field_inj htext
  obtain ⟨hactor, htext⟩ := field_inj htext
  obtain ⟨haction, htext⟩ := field_inj htext
  obtain ⟨hscope, htext⟩ := field_inj htext
  obtain ⟨hargs, htext⟩ := field_inj htext
  obtain ⟨hprev, htext⟩ := field_inj htext
  obtain ⟨hnew, htext⟩ := newPubkey_inj htext
  obtain ⟨hkey, htext⟩ := field_inj htext
  obtain ⟨hpub, -⟩ := field_inj htext
  cases b
  cases b'
  simp_all

theorem serde_canonical : serde.Canonical := ⟨bodyJson_injective⟩

/-! ## One line -/

theorem newline_notMem_escapeChar (c : Char) : '\n' ∉ escapeChar c := by
  have hdigit (n : Nat) (hn : n < 16) : hexDigit n ≠ '\n' := by
    have h : ∀ n < 16, hexDigit n ≠ '\n' := by decide
    exact h n hn
  unfold escapeChar
  split
  · rename_i e he
    unfold shortEscape at he
    split at he <;> simp_all <;> (subst he; decide)
  · rename_i he
    split_ifs with hlt
    · have h1 := hdigit (c.toNat / 16) (by omega)
      have h2 := hdigit (c.toNat % 16) (by omega)
      simp [Ne.symm h1, Ne.symm h2]
    · intro hm
      obtain rfl : '\n' = c := by simpa using hm
      exact hlt (by decide)

theorem newline_notMem_field (name v : String) (h : '\n' ∉ name.toList) : '\n' ∉ field name v := by
  have he : '\n' ∉ escape v.toList := by
    simp only [escape, List.mem_flatMap, not_exists, not_and]
    exact fun c _ => newline_notMem_escapeChar c
  simp [field, fieldHead, he, h]

theorem newline_notMem_digits (n : Nat) : '\n' ∉ Nat.toDigits 10 n := fun h => by
  have hd := Nat.isDigit_of_mem_toDigits (by decide) (by decide) h
  revert hd
  decide

theorem newline_notMem_record (r : LedgerRecord) : '\n' ∉ head r.seq r.ts ++ recordFields r := by
  have hnew : '\n' ∉ newPubkeyField r.newPubkey := by
    unfold newPubkeyField
    split_ifs
    · simp
    · exact newline_notMem_field _ _ (by decide)
  have hfield (name v : String) (rest : List Char) (hn : '\n' ∉ name.toList) (hr : '\n' ∉ rest) :
      '\n' ∉ field name v ++ rest := List.not_mem_append (newline_notMem_field name v hn) hr
  have hhead : '\n' ∉ head r.seq r.ts := by
    unfold head
    exact List.not_mem_append (by decide) (List.not_mem_append (newline_notMem_digits _) (List.not_mem_append (by decide) (newline_notMem_digits _)))
  refine List.not_mem_append hhead ?_
  unfold recordFields
  iterate 6 refine hfield _ _ _ (by decide) ?_
  refine List.not_mem_append hnew ?_
  iterate 4 refine hfield _ _ _ (by decide) ?_
  decide

/-- A record is one line, and it is read back. -/
theorem serde_sound : serde.Sound where
  parse_record r := by
    simp only [serde, recordJson, String.toList_ofList, readRecord_recordJson]
  noNewline r := by
    simp only [serde, recordJson, String.toList_ofList]
    exact newline_notMem_record r
  opens r := by
    simp only [serde, recordJson, String.toList_ofList]
    rfl
  closes r := by
    simp only [serde, recordJson, String.toList_ofList, recordFields, ← List.append_assoc,
      List.getLast?_concat]

end Metalogos.Ledger
