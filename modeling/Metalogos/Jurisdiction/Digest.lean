import Metalogos.Jurisdiction.Matrix

/-!
# What the matrix digest binds

`digest` hashes the row digests that the rows carry, and compiling reads the fields beside them. `JurisdictionRule::new`
derives the row digest from the fields; a row read from JSON keeps the digest that stands there, and no path compares
the two.

* `matrixDigest_binds`: where every row carries the digest of its own text, and no separator stands in the code or the
  carrier of a row, equal digests have equal lists. For every accepted matrix there is another one with the same
  digest and other lists.
* Two rows of the constructor can have one text where a carrier holds the separator.
-/
namespace Metalogos.Jurisdiction

open Metalogos.Lib

section

variable {α : Type} {c : α} {a b x y : List α}

theorem cut_first (ha : c ∉ a) (hb : c ∉ b) (h : a ++ c :: x = b ++ c :: y) : a = b ∧ x = y := by
  induction a generalizing b with
  | nil =>
    cases b with
    | nil => exact ⟨rfl, (List.cons.inj h).2⟩
    | cons d b => exact absurd (List.mem_cons.2 (.inl (List.cons.inj h).1)) hb
  | cons d a ih =>
    cases b with
    | nil => exact absurd (List.mem_cons.2 (.inl (List.cons.inj h).1.symm)) ha
    | cons e b =>
      obtain ⟨rfl, htail⟩ := List.cons.inj h
      obtain ⟨rfl, rfl⟩ := ih (fun hc => ha (List.mem_cons_of_mem _ hc)) (fun hc => hb (List.mem_cons_of_mem _ hc)) htail
      exact ⟨rfl, rfl⟩

end

def sep : Char := '\x1f'

/-- What the lists are made of. -/
def JurisdictionRule.verdict (r : JurisdictionRule) : String × String × PolicyEffect :=
  (r.jurisdiction, r.carrier, r.effect)

def JurisdictionRule.Plain (r : JurisdictionRule) : Prop :=
  sep ∉ r.jurisdiction.toList ∧ sep ∉ r.carrier.toList

theorem canonicalRule_toList (r : JurisdictionRule) :
    (canonicalRule r).toList = "v1".toList ++ sep :: (r.jurisdiction.toList ++ sep :: (r.carrier.toList ++ sep ::
      (r.effect.asStr.toList ++ sep :: (r.normRef.toList ++ sep :: (r.checkedAt.toList ++ sep :: r.source.toList))))) := by
  unfold canonicalRule
  rw [String.toList_intercalate]
  simp [List.intercalate, List.intersperse, sep]

theorem asStr_free (e : PolicyEffect) : sep ∉ e.asStr.toList := by
  cases e <;> decide

theorem asStr_inj {e e' : PolicyEffect} (h : e.asStr = e'.asStr) : e = e' := by
  revert h
  cases e <;> cases e' <;> decide

theorem canonicalRule_inj {r r' : JurisdictionRule} (hr : r.Plain) (hr' : r'.Plain)
    (h : canonicalRule r = canonicalRule r') : r.verdict = r'.verdict := by
  have htext := congrArg String.toList h
  rw [canonicalRule_toList, canonicalRule_toList] at htext
  obtain ⟨-, htext⟩ := cut_first (by decide) (by decide) htext
  obtain ⟨hj, htext⟩ := cut_first hr.1 hr'.1 htext
  obtain ⟨hc, htext⟩ := cut_first hr.2 hr'.2 htext
  obtain ⟨he, -⟩ := cut_first (asStr_free _) (asStr_free _) htext
  unfold JurisdictionRule.verdict
  rw [String.toList_inj.1 hj, String.toList_inj.1 hc, asStr_inj (String.toList_inj.1 he)]

/-- A separator in a carrier or a norm is not escaped: a deny over `x` and an allow over another carrier. -/
example : canonicalRule ⟨"EU", "x", .deny, "n\x1fallow\x1fn", "2026-11-03", "s", ""⟩ =
    canonicalRule ⟨"EU", "x\x1fdeny\x1fn", .allow, "n", "2026-11-03", "s", ""⟩ := by decide +kernel

/-! ## Two matrices with one digest -/

def SamePolicy (p p' : JurisdictionPolicy) : Prop := ∀ e c, c ∈ p.toBuckets.of e ↔ c ∈ p'.toBuckets.of e

/-- Every row carries the digest of its own text, and no separator stands in its code or its carrier. -/
def Derived (sha256Hex : String → String) (m : JurisdictionMatrix) : Prop :=
  ∀ r ∈ m.rows, r.rowDigest = canonicalRuleDigest sha256Hex r ∧ r.Plain

/-- Each row with another effect; the row digests stay. -/
def retag (m : JurisdictionMatrix) (e : PolicyEffect) : JurisdictionMatrix := ⟨m.rows.map fun r => { r with effect := e }⟩

section

variable {sha256Hex : String → String} {m m' : JurisdictionMatrix} {j : String} {p p' : JurisdictionPolicy}

theorem digest_retag (e : PolicyEffect) : (retag m e).digest sha256Hex = m.digest sha256Hex := by
  unfold retag JurisdictionMatrix.digest
  rw [List.map_map]
  rfl

theorem compile_retag (h : compileJurisdictionPolicy sha256Hex m j = .ok p) (e : PolicyEffect) :
    ∃ p', compileJurisdictionPolicy sha256Hex (retag m e) j = .ok p' := by
  obtain ⟨⟨r, hr, hj⟩, hall, hcode⟩ := compile_ok_iff.1 ⟨p, h⟩
  refine compile_ok_iff.2 ⟨⟨{ r with effect := e }, List.mem_map_of_mem hr, hj⟩, fun r' hr' hj' => ?_, hcode⟩
  obtain ⟨r, hr, rfl⟩ := List.mem_map.1 hr'
  exact hall r hr hj'

/-- A row of the jurisdiction stands in the list of the new effect, and in no other. -/
theorem retag_lists {e : PolicyEffect} (h : compileJurisdictionPolicy sha256Hex m j = .ok p)
    (h' : compileJurisdictionPolicy sha256Hex (retag m e) j = .ok p') :
    (∃ c, c ∈ p'.toBuckets.of e) ∧ ∀ e' ≠ e, ∀ c, c ∉ p'.toBuckets.of e' := by
  obtain ⟨-, hmem⟩ := compile_spec h'
  obtain ⟨⟨r, hr, hj⟩, -, -⟩ := compile_ok_iff.1 ⟨p, h⟩
  constructor
  · exact ⟨r.carrier, (hmem e _).2 ⟨{ r with effect := e }, List.mem_map_of_mem hr, hj, rfl, rfl⟩⟩
  · intro e' hne c hc
    obtain ⟨r', hr', -, -, he⟩ := (hmem e' c).1 hc
    obtain ⟨r, -, rfl⟩ := List.mem_map.1 hr'
    exact hne he.symm

theorem exists_tampered (h : compileJurisdictionPolicy sha256Hex m j = .ok p) :
    ∃ e p', compileJurisdictionPolicy sha256Hex (retag m e) j = .ok p' ∧ p'.matrixDigest = p.matrixDigest ∧
      ¬ SamePolicy p p' := by
  have hdigest : ∀ e p', compileJurisdictionPolicy sha256Hex (retag m e) j = .ok p' → p'.matrixDigest = p.matrixDigest := by
    intro e p' h'
    rw [(compile_spec h').1, (compile_spec h).1, digest_retag]
  by_cases hdeny : ∃ c, c ∈ p.toBuckets.of .deny
  · obtain ⟨c, hc⟩ := hdeny
    obtain ⟨p', h'⟩ := compile_retag h .allow
    refine ⟨.allow, p', h', hdigest _ _ h', fun hsame => ?_⟩
    exact (retag_lists h h').2 .deny (by decide) c ((hsame _ _).1 hc)
  · obtain ⟨p', h'⟩ := compile_retag h .deny
    refine ⟨.deny, p', h', hdigest _ _ h', fun hsame => hdeny ?_⟩
    obtain ⟨c, hc⟩ := (retag_lists h h').1
    exact ⟨c, (hsame _ _).2 hc⟩

theorem rowDigests_inj (hinj : Function.Injective sha256Hex) (hfree : ∀ s, sep ∉ (sha256Hex s).toList)
    (hd : Derived sha256Hex m) (hd' : Derived sha256Hex m') (hne : m.rows ≠ []) (hne' : m'.rows ≠ [])
    (h : m.digest sha256Hex = m'.digest sha256Hex) : m.rows.map (·.rowDigest) = m'.rows.map (·.rowDigest) := by
  have htext := congrArg String.toList (hinj h)
  rw [String.toList_intercalate, String.toList_intercalate] at htext
  have hrows : ∀ {m : JurisdictionMatrix}, Derived sha256Hex m →
      ∀ l ∈ (m.rows.map (·.rowDigest)).map String.toList, sep ∉ l := by
    intro m hm l hl
    obtain ⟨s, hs, rfl⟩ := List.mem_map.1 hl
    obtain ⟨r, hr, rfl⟩ := List.mem_map.1 hs
    rw [(hm r hr).1]
    exact hfree _
  have hlists := intercalate_inj_of_free (hrows hd) (hrows hd') (by simpa using hne) (by simpa using hne') htext
  exact (List.map_injective_iff.2 fun _ _ => String.toList_inj.1) hlists

theorem verdicts_eq (hinj : Function.Injective sha256Hex) : ∀ {rs rs' : List JurisdictionRule},
    (∀ r ∈ rs, r.rowDigest = canonicalRuleDigest sha256Hex r ∧ r.Plain) →
    (∀ r ∈ rs', r.rowDigest = canonicalRuleDigest sha256Hex r ∧ r.Plain) →
    rs.map (·.rowDigest) = rs'.map (·.rowDigest) → rs.map (·.verdict) = rs'.map (·.verdict) := by
  intro rs
  induction rs with
  | nil =>
    intro rs' _ _ h
    cases rs' with
    | nil => rfl
    | cons r' rs' => cases h
  | cons r rs ih =>
    intro rs' hrs hrs' h
    cases rs' with
    | nil => cases h
    | cons r' rs' =>
      simp only [List.map_cons, List.cons.injEq] at h ⊢
      obtain ⟨hr, hplain⟩ := hrs r (by simp)
      obtain ⟨hr', hplain'⟩ := hrs' r' (by simp)
      rw [hr, hr'] at h
      exact ⟨canonicalRule_inj hplain hplain' (hinj h.1), ih (fun r hr => hrs r (by simp [hr]))
        (fun r hr => hrs' r (by simp [hr])) h.2⟩

theorem mem_of_iff_verdict (h : compileJurisdictionPolicy sha256Hex m j = .ok p) (e : PolicyEffect) (c : String) :
    c ∈ p.toBuckets.of e ↔ (j, c, e) ∈ m.rows.map (·.verdict) := by
  rw [(compile_spec h).2]
  simp [JurisdictionRule.verdict]

end

/-- Equal digests have equal lists where both matrices are derived; and whatever is accepted has a tampered partner. -/
theorem matrixDigest_binds {sha256Hex : String → String} (hinj : Function.Injective sha256Hex)
    (hfree : ∀ s, sep ∉ (sha256Hex s).toList) {m : JurisdictionMatrix} {j : String} {p : JurisdictionPolicy}
    (h : compileJurisdictionPolicy sha256Hex m j = .ok p) :
    (Derived sha256Hex m → ∀ m' p', Derived sha256Hex m' → compileJurisdictionPolicy sha256Hex m' j = .ok p' →
      p.matrixDigest = p'.matrixDigest → SamePolicy p p') ∧
    ∃ m' p', compileJurisdictionPolicy sha256Hex m' j = .ok p' ∧ p'.matrixDigest = p.matrixDigest ∧
      ¬ SamePolicy p p' := by
  constructor
  · intro hd m' p' hd' h' hdigest e c
    obtain ⟨⟨r, hr, -⟩, -, -⟩ := compile_ok_iff.1 ⟨p, h⟩
    obtain ⟨⟨r', hr', -⟩, -, -⟩ := compile_ok_iff.1 ⟨p', h'⟩
    rw [(compile_spec h).1, (compile_spec h').1] at hdigest
    have hrows := rowDigests_inj hinj hfree hd hd' (List.ne_nil_of_mem hr) (List.ne_nil_of_mem hr') hdigest
    rw [mem_of_iff_verdict h, mem_of_iff_verdict h', verdicts_eq hinj hd hd' hrows]
  · obtain ⟨e, p', h', hdigest, hdiff⟩ := exists_tampered h
    exact ⟨_, p', h', hdigest, hdiff⟩

/-! ## Instances -/

/-- An injective text of hex digits. -/
def hexOf (s : String) : String := String.ofList (hexEncode s.toByteArray.data.toList)

theorem hexOf_injective : Function.Injective hexOf := by
  intro s s' h
  have hbytes := congrArg hexDecode (String.ofList_inj.1 h)
  rw [hexDecode_encode, hexDecode_encode, Option.some.injEq, Array.toList_inj] at hbytes
  exact String.toByteArray_inj.1 (ByteArray.ext hbytes)

theorem hexDigit_free : ∀ n < 16, hexDigit n ≠ sep := by decide

theorem hexOf_free (s : String) : sep ∉ (hexOf s).toList := by
  unfold hexOf
  rw [String.toList_ofList]
  generalize s.toByteArray.data.toList = bs
  induction bs with
  | nil => simp [hexEncode]
  | cons b bs ih =>
    have hb : b.toNat < 256 := b.toNat_lt
    simp only [hexEncode, List.mem_cons, not_or]
    exact ⟨(hexDigit_free _ (by omega)).symm, (hexDigit_free _ (by omega)).symm, ih⟩

def euRow (carrier : String) (effect : PolicyEffect) (normRef : String) : JurisdictionRule :=
  { jurisdiction := "EU", carrier, effect, normRef, checkedAt := "2026-11-03", source := "seed", rowDigest := "r1" }

def signed (r : JurisdictionRule) : JurisdictionRule := { r with rowDigest := canonicalRuleDigest hexOf r }

theorem matrixDigest_binds_erasure :
    ∃ p, compileJurisdictionPolicy hexOf ⟨[signed (euRow "forget" .deny "Art. 17")]⟩ "EU" = .ok p ∧
      (∀ m' p', Derived hexOf m' → compileJurisdictionPolicy hexOf m' "EU" = .ok p' →
        p.matrixDigest = p'.matrixDigest → SamePolicy p p') ∧
      ∃ m' p', compileJurisdictionPolicy hexOf m' "EU" = .ok p' ∧ p'.matrixDigest = p.matrixDigest ∧
        ¬ SamePolicy p p' := by
  obtain ⟨p, h⟩ : ∃ p, compileJurisdictionPolicy hexOf ⟨[signed (euRow "forget" .deny "Art. 17")]⟩ "EU" = .ok p :=
    compile_ok_iff.2 ⟨⟨_, List.mem_singleton_self _, rfl⟩, by decide +kernel, by decide +kernel⟩
  have hd : Derived hexOf ⟨[signed (euRow "forget" .deny "Art. 17")]⟩ := by
    intro r hr
    obtain rfl := List.mem_singleton.1 hr
    exact ⟨rfl, by decide, by decide⟩
  obtain ⟨hbinds, htampered⟩ := matrixDigest_binds hexOf_injective hexOf_free h
  exact ⟨p, h, hbinds hd, htampered⟩

/-- The effect of a stored row is changed and its digest is left. -/
theorem matrixDigest_unbound :
    ¬ ∀ sha256Hex : String → String, Function.Injective sha256Hex → (∀ s, sep ∉ (sha256Hex s).toList) →
      ∀ (m m' : JurisdictionMatrix) (j : String) (p p' : JurisdictionPolicy),
        compileJurisdictionPolicy sha256Hex m j = .ok p → compileJurisdictionPolicy sha256Hex m' j = .ok p' →
        p.matrixDigest = p'.matrixDigest → SamePolicy p p' := by
  intro hall
  obtain ⟨p, h⟩ : ∃ p, compileJurisdictionPolicy hexOf ⟨[signed (euRow "forget" .deny "Art. 17")]⟩ "EU" = .ok p :=
    compile_ok_iff.2 ⟨⟨_, List.mem_singleton_self _, rfl⟩, by decide +kernel, by decide +kernel⟩
  obtain ⟨e, p', h', hdigest, hdiff⟩ := exists_tampered h
  exact hdiff (hall hexOf hexOf_injective hexOf_free _ _ _ p p' h h' hdigest.symm)

end Metalogos.Jurisdiction
