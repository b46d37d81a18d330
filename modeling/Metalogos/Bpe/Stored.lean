import Mathlib.Algebra.Group.Nat.Defs
import Metalogos.Bpe.Train
import Metalogos.Lib.Lossy
import Metalogos.Lib.Reader

/-!
# Stored vocabularies

`serialize_vocab` and `deserialize_vocab` of `metalogos-reflex/src/nn/bpe.rs`. A file is two counted lists, of merges
and of numbered tokens, and every text in it follows its length. Lengths and counts have four bytes, so a vocabulary can
be stored when its parts are short enough (`Storable`), which those of a trained vocabulary are. A file lists the tokens
in the order of the hash map; what is loaded lists them in another one, and encodes and decodes as before.
-/
namespace Metalogos.Bpe

open Metalogos.Lib Metalogos.Lib.Reader

/-- `u32::to_le_bytes` -/
def le32 (n : Nat) : List UInt8 :=
  [UInt8.ofNat n, UInt8.ofNat (n / 256), UInt8.ofNat (n / 256 / 256), UInt8.ofNat (n / 256 / 256 / 256)]

/-- `u32::from_le_bytes` -/
def fromLe32 : List UInt8 → Nat
  | [] => 0
  | b :: bytes => b.toNat + 256 * fromLe32 bytes

/-- A text behind its length. -/
def textBytes (t : Token) : List UInt8 := le32 (asU32 (utf8Bytes t).length) ++ utf8Bytes t

def mergeBytes (p : Pair) : List UInt8 := textBytes p.1 ++ textBytes p.2

def entryBytes (e : Token × Nat) : List UInt8 := textBytes e.1 ++ le32 e.2

/-- mirrors metalogos-reflex/src/nn/bpe.rs:251-276 -/
def serializeVocab (o : Listing (Token × Nat)) (v : BpeVocab) : List UInt8 :=
  le32 (asU32 v.merges.length) ++ (v.merges.flatMap mergeBytes ++
    (le32 (asU32 v.vocab.keys.length) ++ (o.list v.vocab.pairs).flatMap entryBytes))

/-- `String::from_utf8` -/
def fromUtf8 (bytes : List UInt8) : Option (List Char) := bytes.toByteArray.utf8Decode?.map Array.toList

def readU32 (short : String) : Reader UInt8 Nat := do
  let bytes ← taking 4 ("reflex_bpe_load: " ++ short)
  pure (fromLe32 bytes)

/-- mirrors metalogos-reflex/src/nn/bpe.rs:371-383 -/
def loaded (o : Listing (Token × Nat)) (merges : List Pair) (entries : List (Token × Nat)) : BpeVocab :=
  let vocab := entries.foldl (fun d e => d.set e.1 e.2) Dict.empty
  ⟨merges, vocab, invert (o.list vocab.pairs), vocab.keys.length⟩

section

variable (utf8Error : List UInt8 → String)

def readText (truncated invalid : String) : Reader UInt8 Token := do
  let len ← readU32 ("truncated " ++ truncated ++ " len")
  let bytes ← taking len ("reflex_bpe_load: truncated " ++ truncated ++ " data")
  orFail (fromUtf8 bytes) ("reflex_bpe_load: invalid UTF-8 in " ++ invalid ++ ": " ++ utf8Error bytes)

/-- mirrors metalogos-reflex/src/nn/bpe.rs:296-332 -/
def readMerge : Reader UInt8 Pair := do
  let a ← readText utf8Error "merge first" "merge first"
  let b ← readText utf8Error "merge second" "merge second"
  pure (a, b)

/-- mirrors metalogos-reflex/src/nn/bpe.rs:346-372 -/
def readEntry : Reader UInt8 (Token × Nat) := do
  let token ← readText utf8Error "vocab token" "token"
  let id ← readU32 "truncated vocab id"
  pure (token, id)

def readVocab : Reader UInt8 (List Pair × List (Token × Nat)) := do
  let numMerges ← readU32 "data too short"
  let merges ← times (readMerge utf8Error) numMerges
  let numVocab ← readU32 "truncated vocab count"
  let entries ← times (readEntry utf8Error) numVocab
  pure (merges, entries)

/-- mirrors metalogos-reflex/src/nn/bpe.rs:279-384 -/
def deserializeVocab (o : Listing (Token × Nat)) (data : List UInt8) : Except String BpeVocab := do
  let read ← (readVocab utf8Error).run data
  .ok (loaded o read.1.1 read.1.2)

end

/-! ## Numbers and texts -/

theorem fromLe32_le32 {n : Nat} (h : n < 2 ^ 32) : fromLe32 (le32 n) = n := by
  simp only [le32, fromLe32, UInt8.toNat_ofNat']
  omega

theorem asU32_of_lt {n : Nat} (h : n < 2 ^ 32) : asU32 n = n := Nat.mod_eq_of_lt h

theorem fromUtf8_utf8Bytes (t : Token) : fromUtf8 (utf8Bytes t) = some t := by
  have hencode : (utf8Bytes t).toByteArray = t.utf8Encode := rfl
  rw [fromUtf8, hencode, List.utf8Decode?_utf8Encode, Option.map_some, List.toList_toArray]

theorem reads_readU32 {n : Nat} (h : n < 2 ^ 32) (short : String) : (readU32 short).Reads (le32 (asU32 n)) n := by
  have htake : (taking 4 ("reflex_bpe_load: " ++ short)).Reads (le32 n) (le32 n) := reads_taking (le32 n) _
  rw [asU32_of_lt h, ← List.append_nil (le32 n)]
  refine htake.bind ?_
  rw [fromLe32_le32 h]
  exact reads_pure n

theorem local_readU32 (short : String) : (readU32 short).Local := (local_taking _ _).bind fun _ => local_pure _

section

variable {utf8Error : List UInt8 → String}

theorem reads_readText {t : Token} (h : (utf8Bytes t).length < 2 ^ 32) (truncated invalid : String) :
    (readText utf8Error truncated invalid).Reads (textBytes t) t := by
  refine (reads_readU32 h _).bind ?_
  rw [← List.append_nil (utf8Bytes t)]
  refine Reads.bind (a := utf8Bytes t) ?_ ?_
  · rw [List.append_nil]
    exact reads_taking _ _
  · rw [fromUtf8_utf8Bytes]
    exact reads_pure t

theorem local_readText (truncated invalid : String) : (readText utf8Error truncated invalid).Local :=
  (local_readU32 _).bind fun _ => (local_taking _ _).bind fun _ => local_orFail _ _

theorem local_readVocab : (readVocab utf8Error).Local := by
  have hmerge : (readMerge utf8Error).Local :=
    (local_readText _ _).bind fun _ => (local_readText _ _).bind fun _ => local_pure _
  have hentry : (readEntry utf8Error).Local :=
    (local_readText _ _).bind fun _ => (local_readU32 _).bind fun _ => local_pure _
  exact (local_readU32 _).bind fun _ => (hmerge.times _).bind fun _ =>
    (local_readU32 _).bind fun _ => (hentry.times _).bind fun _ => local_pure _

end

/-! ## What can be stored -/

/-- Every number of the file fits into its four bytes, and the tokens have different numbers. -/
structure Storable (v : BpeVocab) : Prop where
  nodup : v.vocab.keys.Nodup
  ids : (v.vocab.pairs.map (·.2)).Nodup
  merges : v.merges.length < 2 ^ 32
  entries : v.vocab.keys.length < 2 ^ 32
  mergeTexts : ∀ p ∈ v.merges, (utf8Bytes p.1).length < 2 ^ 32 ∧ (utf8Bytes p.2).length < 2 ^ 32
  entryTexts : ∀ e ∈ v.vocab.pairs, (utf8Bytes e.1).length < 2 ^ 32 ∧ e.2 < 2 ^ 32

theorem Storable.reads {v : BpeVocab} (h : Storable v) (utf8Error : List UInt8 → String)
    (o : Listing (Token × Nat)) :
    (readVocab utf8Error).Reads (serializeVocab o v) (v.merges, o.list v.vocab.pairs) := by
  have hmerge : ∀ p ∈ v.merges, (readMerge utf8Error).Reads (mergeBytes p) p := by
    intro p hp
    refine (reads_readText (h.mergeTexts p hp).1 _ _).bind ?_
    rw [← List.append_nil (textBytes p.2)]
    exact (reads_readText (h.mergeTexts p hp).2 _ _).bind (reads_pure p)
  have hentry : ∀ e ∈ o.list v.vocab.pairs, (readEntry utf8Error).Reads (entryBytes e) e := by
    intro e he
    obtain ⟨htext, hid⟩ := h.entryTexts e (o.mem_list.1 he)
    refine (reads_readText htext _ _).bind ?_
    rw [← List.append_nil (le32 e.2)]
    have hnumber := reads_readU32 hid "truncated vocab id"
    rw [asU32_of_lt hid] at hnumber
    exact hnumber.bind (reads_pure e)
  have hcount : v.vocab.keys.length = (o.list v.vocab.pairs).length := by
    rw [(o.perm _).length_eq]
    exact List.length_map _
  refine (reads_readU32 h.merges _).bind ((Reads.times hmerge).bind ((reads_readU32 h.entries _).bind ?_))
  rw [hcount, ← List.append_nil (List.flatMap entryBytes _)]
  exact (Reads.times hentry).bind (reads_pure _)

/-! ## What is loaded -/

theorem foldl_set_pairs {entries : List (Token × Nat)} {d : Dict Token Nat}
    (h : ((d.pairs ++ entries).map (·.1)).Nodup) :
    (entries.foldl (fun d e => d.set e.1 e.2) d).pairs = d.pairs ++ entries := by
  induction entries generalizing d with
  | nil => exact (List.append_nil _).symm
  | cons e es ih =>
    have hnew : (d.set e.1 e.2).pairs = d.pairs ++ [e] := by
      rw [List.map_append, List.nodup_append] at h
      have hold : ∀ e' ∈ d.pairs, decide (e'.1 ≠ e.1) = true := fun e' he' =>
        decide_eq_true (h.2.2 _ (List.mem_map_of_mem he') _ (List.mem_map_of_mem List.mem_cons_self))
      rw [Dict.set, Dict.erase, List.filter_eq_self.2 hold]
    rw [List.foldl_cons, ih]
    · rw [hnew, List.append_assoc]
      rfl
    · rwa [hnew, List.append_assoc]

theorem get_perm {d d' : Dict Token Nat} (hnodup : d.keys.Nodup) (h : d'.pairs.Perm d.pairs) (t : Token) :
    d'.get t = d.get t := by
  have hkeys : d'.keys.Perm d.keys := h.map _
  have hnodup' : d'.keys.Nodup := hkeys.nodup_iff.2 hnodup
  refine Option.ext fun id => ⟨fun hid => ?_, fun hid => ?_⟩
  · exact Dict.get_of_mem_pairs hnodup (h.mem_iff.1 (Dict.mem_pairs_of_get hid))
  · exact Dict.get_of_mem_pairs hnodup' (h.mem_iff.2 (Dict.mem_pairs_of_get hid))

theorem invert_perm {entries entries' : List (Token × Nat)} (hnodup : (entries.map (·.2)).Nodup)
    (h : entries'.Perm entries) (id : Nat) : (invert entries').get id = (invert entries).get id := by
  have hnodup' : (entries'.map (·.2)).Nodup := (h.map (·.2)).nodup_iff.2 hnodup
  by_cases hid : id ∈ entries.map (·.2)
  · obtain ⟨⟨t, id⟩, hin, rfl⟩ := List.mem_map.1 hid
    rw [invert_get hnodup hin, invert_get hnodup' (h.mem_iff.2 hin)]
  · have hid' : id ∉ entries'.map (·.2) := fun hin => hid ((h.map (·.2)).mem_iff.1 hin)
    rw [invert, invert, invert_other hid, invert_other hid']

section

variable {v v' : BpeVocab}

theorem encodeBpe_congr (hmerges : v'.merges = v.merges) (hvocab : ∀ t, v'.vocab.get t = v.vocab.get t)
    (hsize : v'.vocabSize = v.vocabSize) (text : List Char) : encodeBpe text v' = encodeBpe text v := by
  have hstep : mergeStep v'.vocab = mergeStep v.vocab := by
    funext ts p
    exact if_congr (by rw [Dict.has, Dict.has, hvocab]) rfl rfl
  have hid : tokenId v' = tokenId v := by
    funext t
    simp only [tokenId, hvocab, hsize]
  simp only [encodeBpe, hmerges, hstep, hid]

theorem decodeBpe_congr (hids : ∀ id, v'.idToToken.get id = v.idToToken.get id) (ids : List Nat) :
    decodeBpe ids v' = decodeBpe ids v := by
  unfold decodeBpe
  generalize 0 = i
  induction ids generalizing i with
  | nil => rfl
  | cons id ids ih => simp only [decodeFrom, hids, ih]

end

/-! ## A trained vocabulary -/

theorem length_le_utf8Bytes (text : List Char) : text.length ≤ (utf8Bytes text).length := by
  induction text with
  | nil => exact Nat.le_refl _
  | cons c cs ih =>
    have hchar : 0 < (String.utf8EncodeChar c).length := by
      rw [String.length_utf8EncodeChar]
      exact c.utf8Size_pos
    have hsplit : (utf8Bytes (c :: cs)).length = (String.utf8EncodeChar c).length + (utf8Bytes cs).length :=
      List.length_append
    rw [hsplit, List.length_cons]
    omega

theorem utf8Bytes_infix {t text : List Char} (h : t <:+: text) : (utf8Bytes t).length ≤ (utf8Bytes text).length := by
  obtain ⟨l, r, rfl⟩ := h
  simp only [utf8Bytes, List.flatMap_append, List.length_append]
  omega

section

variable {o : Listing (Pair × Nat)} {o' : Listing (Token × Nat)} {corpus : List Char} {target : Nat} {v : BpeVocab}

theorem trainBpe_storable (h : trainBpe o o' corpus target = .ok v) (hsize : (utf8Bytes corpus).length < 2 ^ 31) :
    Storable v := by
  obtain ⟨-, s, -, hs, rfl⟩ := trainBpe_ok h
  have hchars := length_le_utf8Bytes corpus
  have hroom := hs.room
  have hshrinks := hs.shrinks
  have hfits {t : Token} (ht : t <:+: corpus) : (utf8Bytes t).length < 2 ^ 32 := by
    have hle := utf8Bytes_infix ht
    omega
  refine ⟨hs.numbered.nodup, ?_, ?_, ?_, fun p hp => ?_, fun e he => ?_⟩
  · rw [hs.numbered.ids]
    exact nodup_map_asU32 (by omega)
  · change s.merges.length < _
    omega
  · change s.vocab.keys.length < _
    omega
  · obtain ⟨-, hpiece⟩ := hs.merged p hp
    exact ⟨hfits ((List.prefix_append _ _).isInfix.trans hpiece), hfits ((List.suffix_append _ _).isInfix.trans hpiece)⟩
  · have hget : s.vocab.get e.1 = some e.2 := Dict.get_of_mem_pairs hs.numbered.nodup he
    refine ⟨hfits (hs.pieces e.1 ((Dict.has_eq_true _ _).2 ⟨_, hget⟩)), ?_⟩
    have hid : e.2 ∈ s.vocab.pairs.map (·.2) := List.mem_map_of_mem he
    rw [hs.numbered.ids] at hid
    obtain ⟨n, -, hn⟩ := List.mem_map.1 hid
    rw [← hn]
    exact Nat.mod_lt _ (by decide)

/-- A trained vocabulary comes back from its file, in any order of the hash maps and with anything behind it; and no part
of the file that is cut off early is loaded. -/
theorem bpe_stored (h : trainBpe o o' corpus target = .ok v) (hsize : (utf8Bytes corpus).length < 2 ^ 31)
    (o₁ o₂ : Listing (Token × Nat)) (utf8Error : List UInt8 → String) :
    (∀ rest, ∃ v', deserializeVocab utf8Error o₂ (serializeVocab o₁ v ++ rest) = .ok v' ∧
        (∀ text, encodeBpe text v' = encodeBpe text v) ∧ ∀ ids, decodeBpe ids v' = decodeBpe ids v) ∧
      ∀ cut, cut <+: serializeVocab o₁ v → cut ≠ serializeVocab o₁ v →
        ∃ e, deserializeVocab utf8Error o₂ cut = .error e := by
  have hv := trainBpe_storable h hsize
  have hreads := hv.reads utf8Error o₁
  refine ⟨fun rest => ?_, fun cut hcut hne => ?_⟩
  · refine ⟨loaded o₂ v.merges (o₁.list v.vocab.pairs), by rw [deserializeVocab, hreads rest]; rfl, ?_⟩
    have hperm := o₁.perm v.vocab.pairs
    have hkeys : ((o₁.list v.vocab.pairs).map (·.1)).Perm v.vocab.keys := hperm.map _
    have hloaded : (loaded o₂ v.merges (o₁.list v.vocab.pairs)).vocab.pairs.Perm v.vocab.pairs := by
      rw [loaded, foldl_set_pairs (d := .empty) (hkeys.nodup_iff.2 hv.nodup)]
      exact hperm
    obtain ⟨hlen, hinvert⟩ : v.vocabSize = v.vocab.keys.length ∧ v.idToToken = invert (o'.list v.vocab.pairs) := by
      obtain ⟨-, s, -, -, rfl⟩ := trainBpe_ok h
      exact ⟨rfl, rfl⟩
    refine ⟨encodeBpe_congr rfl (get_perm hv.nodup hloaded) ?_, decodeBpe_congr fun id => ?_⟩
    · rw [hlen]
      exact (hloaded.map (·.1)).length_eq
    · rw [hinvert, invert_perm hv.ids (o'.perm _)]
      exact invert_perm hv.ids ((o₂.perm _).trans hloaded) id
  · obtain ⟨e, he⟩ := hreads.refuses local_readVocab hcut hne
    exact ⟨e, by rw [deserializeVocab, he]; rfl⟩

end

theorem bpe_stored_rare : ∃ v', deserializeVocab (fun _ => "invalid utf-8 sequence") .asGiven
      (serializeVocab .asGiven Sample.rare ++ [0]) = .ok v' ∧
    (∀ text, encodeBpe text v' = encodeBpe text Sample.rare) ∧
      ∀ ids, decodeBpe ids v' = decodeBpe ids Sample.rare :=
  (bpe_stored Sample.trained_rare (by decide) _ _ _).1 [0]

end Metalogos.Bpe
