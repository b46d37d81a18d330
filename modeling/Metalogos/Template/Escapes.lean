import Mathlib.Data.List.Induction
import Metalogos.Template.Render

/-!
# What reaches the page unescaped

Every character of a rendered text is marked with where it comes from: the body of the template, an entity
the escaper wrote, or a character of a value. `render_escapes_iff`: for a template without raw and without
safe slots no special character of a value reaches the page, and the number of `<` stays, exactly as long as
no raw spelling of a parameter is in the text when its turn comes, or its value has no special character. A
text can have a raw spelling without a raw slot in the body: an earlier value brings it in (`raw_by_value`),
or the tokenizer reads the braces of the body another way than `replace` does.
-/
namespace Metalogos.Template

open Metalogos.Lib Metalogos.Lang
open Metalogos.Parser (Text identPart)

/-! ## Marked text -/

inductive Origin where
  | body
  | entity
  | data
  deriving DecidableEq

abbrev Marked := List (Char × Origin)

def markedRaw (val : Text) : Marked := val.map (·, .data)

def markedEscape (val : Text) : Marked :=
  val.flatMap fun c => ((entity c).map fun e => e.map (·, Origin.entity)).getD [(c, .data)]

def renderMarked (body : Text) (vars : List (Name × Text)) (safe : List Name) : Marked :=
  vars.foldl (fun result kv => replaceEach Prod.fst (replaces markedRaw markedEscape safe kv.1 kv.2) result)
    (body.map (·, .body))

/-- The characters that a page reads as markup. -/
def special : List Char := ['<', '>', '&', '"']

theorem entity_isSome_of_special {c : Char} (h : c ∈ special) : ∃ e, entity c = some e := by
  simp only [special, List.mem_cons, List.not_mem_nil, or_false] at h
  rcases h with rfl | rfl | rfl | rfl <;> exact ⟨_, rfl⟩

theorem lt_not_mem_entity {c : Char} {e : Text} (h : entity c = some e) : '<' ∉ e := by
  simp only [entity] at h
  split_ifs at h <;> obtain rfl := Option.some.inj h <;> decide

/-! ## The patterns -/

theorem not_special_of_mem_enclose {width : Nat} {inner : Text} (hi : ∀ c ∈ inner, c ∉ special) :
    ∀ c ∈ enclose width inner, c ∉ special := by
  intro c hc
  simp only [enclose, List.mem_append, List.mem_replicate] at hc
  rcases hc with (⟨-, rfl⟩ | hc) | ⟨-, rfl⟩
  · decide
  · exact hi c hc
  · decide

theorem not_special_of_mem_spaced {inner : Text} (hi : ∀ c ∈ inner, c ∉ special) :
    ∀ c ∈ spaced inner, c ∉ special := by
  intro c hc
  simp only [spaced, List.mem_append, List.mem_cons, List.not_mem_nil, or_false] at hc
  rcases hc with (rfl | hc) | rfl
  · decide
  · exact hi c hc
  · decide

theorem Name.not_special (k : Name) {c : Char} (hc : c ∈ k.text) : c ∉ special := by
  intro hs
  have hpart : special.all (fun d => !identPart d) = true := by decide
  have hc' : (!identPart c) = true := List.all_eq_true.1 hpart c hs
  exact absurd (k.part hc) (by simpa using hc')

/-- No spelling has a special character. -/
theorem not_special_of_mem_spelling {k : Name} {w : Text}
    (hw : w ∈ rawSpellings k ++ safeSpellings k ++ plainSpellings k) : ∀ c ∈ w, c ∉ special := by
  have hk : ∀ c ∈ k.text, c ∉ special := fun c => k.not_special
  have hstage : ∀ stage : Text, stage.all (fun c => decide (c ∉ special)) = true →
      ∀ c ∈ k.text ++ stage, c ∉ special :=
    fun _ hs c hc => (List.mem_append.1 hc).elim (hk c) fun h => of_decide_eq_true (List.all_eq_true.1 hs c h)
  have hbar : ∀ c ∈ k.text ++ " | safe".toList, c ∉ special := hstage _ (by decide)
  have htight : ∀ c ∈ k.text ++ "|safe".toList, c ∉ special := hstage _ (by decide)
  simp only [rawSpellings, safeSpellings, plainSpellings, List.mem_append, List.mem_cons, List.not_mem_nil,
    or_false] at hw
  rcases hw with ((rfl | rfl) | rfl | rfl | rfl | rfl) | rfl | rfl
  · exact not_special_of_mem_enclose (not_special_of_mem_spaced hk)
  · exact not_special_of_mem_enclose hk
  · exact not_special_of_mem_enclose (not_special_of_mem_spaced hbar)
  · exact not_special_of_mem_enclose htight
  · exact not_special_of_mem_enclose (not_special_of_mem_spaced htight)
  · exact not_special_of_mem_enclose hbar
  · exact not_special_of_mem_enclose hk
  · exact not_special_of_mem_enclose (not_special_of_mem_spaced hk)

theorem spelling_ne_nil {k : Name} {w : Text} (hw : w ∈ rawSpellings k ++ safeSpellings k ++ plainSpellings k) :
    w ≠ [] := by
  simp only [rawSpellings, safeSpellings, plainSpellings, List.mem_append, List.mem_cons, List.not_mem_nil,
    or_false] at hw
  rcases hw with ((rfl | rfl) | rfl | rfl | rfl | rfl) | rfl | rfl <;> exact List.cons_ne_nil _ _

variable {α : Type} {raw escaped : Text → List α} {safe : List Name} {k : Name} {v : Text} {r : Text × List α}

/-- What a call inserts is the value, raw or escaped, and what it looks for is a spelling. -/
theorem replaces_cases (h : r ∈ replaces raw escaped safe k v) :
    (r.1 ∈ rawSpellings k ++ safeSpellings k ∧ r.2 = raw v) ∨ (r.1 ∈ plainSpellings k ∧ r.2 = escaped v) := by
  simp only [replaces, List.mem_append, List.mem_map] at h
  rcases h with (⟨w, hw, rfl⟩ | h) | ⟨w, hw, rfl⟩
  · exact .inl ⟨List.mem_append_left _ hw, rfl⟩
  · split_ifs at h
    · obtain ⟨w, hw, rfl⟩ := List.mem_map.1 h
      exact .inl ⟨List.mem_append_right _ hw, rfl⟩
    · cases h
  · exact .inr ⟨hw, rfl⟩

theorem pattern_spelling (h : r ∈ replaces raw escaped safe k v) :
    r.1 ∈ rawSpellings k ++ safeSpellings k ++ plainSpellings k := by
  rcases replaces_cases h with ⟨hw, -⟩ | ⟨hw, -⟩
  · exact List.mem_append_left _ hw
  · exact List.mem_append_right _ hw

theorem pattern_ne_nil : ∀ r ∈ replaces raw escaped safe k v, r.1 ≠ [] :=
  fun _ h => spelling_ne_nil (pattern_spelling h)

/-! ## The marks -/

theorem map_fst_mark (t : Text) (o : Origin) : (t.map (·, o)).map Prod.fst = t := by
  rw [List.map_map]
  exact List.map_id t

theorem map_markedRaw (val : Text) : (markedRaw val).map Prod.fst = val := map_fst_mark val .data

theorem map_markedEscape (val : Text) : (markedEscape val).map Prod.fst = escapeHtmlChars val := by
  simp only [markedEscape, escapeHtmlChars, List.map_flatMap]
  refine List.flatMap_congr fun c _ => ?_
  cases entity c with
  | none => rfl
  | some e => exact map_fst_mark e .entity

theorem map_replaces : (replaces markedRaw markedEscape safe k v).map (fun r => (r.1, r.2.map Prod.fst)) =
    replaces id escapeHtmlChars safe k v := by
  simp only [replaces, List.map_append, List.map_map]
  split_ifs <;> simp [Function.comp_def, map_markedRaw, map_markedEscape]

/-- The marks change nothing. -/
theorem renderMarked_fst (body : Text) (vars : List (Name × Text)) (safe : List Name) :
    (renderMarked body vars safe).map Prod.fst = renderTemplateBody body vars safe := by
  induction vars using List.reverseRecOn with
  | nil => exact map_fst_mark body .body
  | append_singleton vars kv ih =>
    simp only [renderMarked, renderTemplateBody, List.foldl_append, List.foldl_cons, List.foldl_nil] at ih ⊢
    rw [map_replaceEach pattern_ne_nil, map_replaces, ih]

theorem data_of_mem_markedRaw {x : Char × Origin} (h : x ∈ markedRaw v) : x.2 = .data := by
  obtain ⟨c, -, rfl⟩ := List.mem_map.1 h
  rfl

/-- A character the escaper leaves as it is is not special, and no entity has a `<`. -/
theorem mem_markedEscape {x : Char × Origin} (h : x ∈ markedEscape v) :
    (x.2 = .data ∧ x.1 ∉ special) ∨ (x.2 = .entity ∧ x.1 ≠ '<') := by
  obtain ⟨c, -, hx⟩ := List.mem_flatMap.1 h
  cases he : entity c with
  | none =>
    rw [he] at hx
    obtain rfl : x = (c, .data) := by simpa using hx
    refine .inl ⟨rfl, fun hs => ?_⟩
    obtain ⟨e, hse⟩ := entity_isSome_of_special hs
    rw [he] at hse
    cases hse
  | some e =>
    rw [he] at hx
    obtain ⟨d, hd, rfl⟩ := List.mem_map.1 hx
    exact .inr ⟨rfl, fun hlt => lt_not_mem_entity he (hlt ▸ hd)⟩

/-! ## What a turn lets through -/

/-- No special character of a value is in the text. -/
def Clean (t : Marked) : Prop := ∀ x ∈ t, x.1 ∈ special → x.2 ≠ .data

/-- A raw spelling of the parameter is in the text. -/
def ReadsRaw (text : Text) (k : Name) : Prop := ∃ w ∈ rawSpellings k, w <:+: text

def Harmless (v : Text) : Prop := ∀ c ∈ v, c ∉ special

theorem clean_markedRaw : Clean (markedRaw v) ↔ Harmless v := by
  constructor
  · exact fun h c hc hs => h (c, .data) (List.mem_map_of_mem hc) hs rfl
  · intro h x hx hs
    obtain ⟨c, hc, rfl⟩ := List.mem_map.1 hx
    exact absurd hs (h c hc)

theorem clean_markedEscape (v : Text) : Clean (markedEscape v) := by
  intro x hx hs hd
  rcases mem_markedEscape hx with ⟨-, hn⟩ | ⟨he, -⟩
  · exact hn hs
  · rw [hd] at he
    cases he

theorem clean_replaceAll {k : Name} {w : Text} (hw : w ∈ rawSpellings k ++ safeSpellings k ++ plainSpellings k)
    {sub t : Marked} :
    Clean (replaceAll Prod.fst w sub t) ↔ Clean t ∧ (w <:+: t.map Prod.fst → Clean sub) :=
  forall_mem_replaceAll (P := fun x : Char × Origin => x.1 ∈ special → x.2 ≠ .data) (spelling_ne_nil hw)
    fun _ hx hs => absurd hs (not_special_of_mem_spelling hw _ hx)

/-- One parameter that has no safe slot. -/
theorem clean_turn (hk : k ∉ safe) (t : Marked) :
    Clean (replaceEach Prod.fst (replaces markedRaw markedEscape safe k v) t) ↔
      Clean t ∧ (ReadsRaw (t.map Prod.fst) k → Harmless v) := by
  obtain ⟨w₁, w₂, hraw⟩ : ∃ w₁ w₂, rawSpellings k = [w₁, w₂] := ⟨_, _, rfl⟩
  obtain ⟨w₃, w₄, hplain⟩ : ∃ w₃ w₄, plainSpellings k = [w₃, w₄] := ⟨_, _, rfl⟩
  have hspell : ∀ w, w ∈ [w₁, w₂, w₃, w₄] → w ∈ rawSpellings k ++ safeSpellings k ++ plainSpellings k := by
    intro w hw
    simp only [hraw, hplain, List.mem_append, List.mem_cons, List.not_mem_nil, or_false] at hw ⊢
    tauto
  have hrun : replaceEach Prod.fst (replaces markedRaw markedEscape safe k v) t =
      replaceAll Prod.fst w₄ (markedEscape v) (replaceAll Prod.fst w₃ (markedEscape v)
        (replaceAll Prod.fst w₂ (markedRaw v) (replaceAll Prod.fst w₁ (markedRaw v) t))) := by
    rw [replaces, if_neg hk, hraw, hplain]
    rfl
  have hreads : ReadsRaw (t.map Prod.fst) k ↔ w₁ <:+: t.map Prod.fst ∨ w₂ <:+: t.map Prod.fst := by
    simp [ReadsRaw, hraw]
  rw [hrun, clean_replaceAll (hspell w₄ (by simp)), clean_replaceAll (hspell w₃ (by simp)),
    clean_replaceAll (hspell w₂ (by simp)), clean_replaceAll (hspell w₁ (by simp)), hreads, clean_markedRaw]
  have hesc := clean_markedEscape v
  by_cases h₁ : w₁ <:+: t.map Prod.fst
  · constructor
    · rintro ⟨⟨⟨⟨ht, hv⟩, -⟩, -⟩, -⟩
      exact ⟨ht, fun _ => hv h₁⟩
    · rintro ⟨ht, hv⟩
      exact ⟨⟨⟨⟨ht, fun _ => hv (.inl h₁)⟩, fun _ => hv (.inl h₁)⟩, fun _ => hesc⟩, fun _ => hesc⟩
  · -- the text is still the one the turn began with
    rw [replaceAll_of_absent (spelling_ne_nil (hspell w₁ (by simp))) h₁]
    constructor
    · rintro ⟨⟨⟨⟨ht, -⟩, hv⟩, -⟩, -⟩
      exact ⟨ht, fun h => hv (h.resolve_left h₁)⟩
    · rintro ⟨ht, hv⟩
      exact ⟨⟨⟨⟨ht, fun h => absurd h h₁⟩, fun h => hv (.inr h)⟩, fun _ => hesc⟩, fun _ => hesc⟩

/-- Every turn of the order: no raw spelling is in the text it finds, or the value is harmless. -/
def RawKept (body : Text) (vars : List (Name × Text)) (safe : List Name) : Prop :=
  ∀ pre k v post, vars = pre ++ (k, v) :: post → ReadsRaw (renderTemplateBody body pre safe) k → Harmless v

theorem rawKept_concat {body : Text} {vars : List (Name × Text)} : RawKept body (vars ++ [(k, v)]) safe ↔
    RawKept body vars safe ∧ (ReadsRaw (renderTemplateBody body vars safe) k → Harmless v) := by
  constructor
  · refine fun h => ⟨fun pre k' v' post hv => ?_, h vars k v [] rfl⟩
    exact h pre k' v' (post ++ [(k, v)]) (by rw [hv]; simp)
  · rintro ⟨h, hlast⟩ pre k' v' post hv
    rcases List.eq_nil_or_concat post with rfl | ⟨post, kv, rfl⟩
    · obtain ⟨rfl, hkv⟩ := List.append_inj' hv rfl
      cases hkv
      exact hlast
    · rw [List.concat_eq_append, ← List.cons_append, ← List.append_assoc] at hv
      exact h pre k' v' post (List.append_inj' hv rfl).1

/-- The run over the parameters. -/
theorem clean_renderMarked (body : Text) (vars : List (Name × Text)) (hsafe : ∀ kv ∈ vars, kv.1 ∉ safe) :
    Clean (renderMarked body vars safe) ↔ RawKept body vars safe := by
  induction vars using List.reverseRecOn with
  | nil =>
    refine iff_of_true (fun x hx _ => ?_) fun pre k v post hv => absurd hv (by simp)
    obtain ⟨c, -, rfl⟩ := List.mem_map.1 hx
    exact nofun
  | append_singleton vars kv ih =>
    have hturn := clean_turn (v := kv.2) (hsafe kv (by simp)) (renderMarked body vars safe)
    rw [renderMarked_fst, ih fun p hp => hsafe p (by simp [hp])] at hturn
    rw [rawKept_concat, ← hturn, renderMarked, List.foldl_append]
    rfl

/-! ## The number of `<` -/

/-- No entity of the text has a `<`. -/
theorem entity_of_mem_renderMarked (body : Text) (vars : List (Name × Text)) (safe : List Name) :
    ∀ x ∈ renderMarked body vars safe, x.2 = .entity → x.1 ≠ '<' := by
  induction vars using List.reverseRecOn with
  | nil =>
    intro x hx
    obtain ⟨c, -, rfl⟩ := List.mem_map.1 hx
    exact nofun
  | append_singleton vars kv ih =>
    intro x hx he
    rw [renderMarked, List.foldl_append] at hx
    rcases mem_of_mem_replaceEach pattern_ne_nil hx with ⟨r, hr, hx⟩ | hx
    · rcases replaces_cases hr with ⟨-, hr⟩ | ⟨-, hr⟩
      · rw [hr] at hx
        rw [data_of_mem_markedRaw hx] at he
        cases he
      · rw [hr] at hx
        rcases mem_markedEscape hx with ⟨hd, -⟩ | ⟨-, hlt⟩
        · rw [hd] at he
          cases he
        · exact hlt
    · exact ih x hx he

/-- The `<` of the body. -/
def isBodyLt (x : Char × Origin) : Bool := x.1 == '<' && x.2 == .body

theorem filter_renderMarked (body : Text) (vars : List (Name × Text)) (safe : List Name) :
    (renderMarked body vars safe).filter isBodyLt = (body.map (·, Origin.body)).filter isBodyLt := by
  induction vars using List.reverseRecOn with
  | nil => rfl
  | append_singleton vars kv ih =>
    rw [← ih, renderMarked, List.foldl_append]
    refine filter_replaceEach pattern_ne_nil isBodyLt (fun r hr x hx hmem => ?_) fun r hr x hx hlt => ?_
    · simp only [isBodyLt, Bool.and_eq_true, beq_iff_eq] at hx
      exact not_special_of_mem_spelling (pattern_spelling hr) _ hmem (by rw [hx.1]; decide)
    · simp only [isBodyLt, Bool.and_eq_true, beq_iff_eq] at hlt
      rcases replaces_cases hr with ⟨-, hr⟩ | ⟨-, hr⟩
      · rw [hr] at hx
        rw [data_of_mem_markedRaw hx] at hlt
        exact nomatch hlt.2
      · rw [hr] at hx
        rcases mem_markedEscape hx with ⟨ho, -⟩ | ⟨ho, -⟩
        · exact nomatch ho.symm.trans hlt.2
        · exact nomatch ho.symm.trans hlt.2

theorem count_marked (t : Marked) (h : ∀ x ∈ t, x.1 = '<' → x.2 = .body) :
    (t.map Prod.fst).count '<' = (t.filter isBodyLt).length := by
  rw [List.count, List.countP_map, List.countP_eq_length_filter]
  congr 1
  refine List.filter_congr fun x hx => ?_
  by_cases hlt : x.1 = '<'
  · simp [isBodyLt, hlt, h x hx hlt]
  · simp [isBodyLt, hlt]

theorem count_of_clean {body : Text} {vars : List (Name × Text)} (h : Clean (renderMarked body vars safe)) :
    (renderTemplateBody body vars safe).count '<' = body.count '<' := by
  have hlt : ∀ x ∈ renderMarked body vars safe, x.1 = '<' → x.2 = .body := by
    intro x hx hlt
    cases ho : x.2 with
    | body => rfl
    | entity => exact absurd hlt (entity_of_mem_renderMarked body vars safe x hx ho)
    | data => exact absurd ho (h x hx (by rw [hlt]; decide))
  have hbody : ∀ x ∈ body.map (·, Origin.body), x.1 = '<' → x.2 = .body := by
    intro x hx _
    obtain ⟨c, -, rfl⟩ := List.mem_map.1 hx
    rfl
  rw [← renderMarked_fst, count_marked _ hlt, filter_renderMarked, ← count_marked _ hbody, map_fst_mark]

/-! ## Registered templates -/

/-- What a registration stores. -/
theorem registerTemplate_entry {reg reg' : Registry} {name body : Text} {params : List Name} {entry : TemplateEntry}
    (hr : registerTemplate reg name body params = some (.ok reg')) (he : reg'.get name = some entry) :
    entry.body = body ∧ ∃ scan, pipeScan body params = some scan ∧
      entry.safeParams = scan.1.filterMap (params[·]?) := by
  unfold registerTemplate at hr
  obtain ⟨refusal, -, hr⟩ := Option.bind_eq_some_iff.1 hr
  cases refusal with
  | some text => cases hr
  | none =>
    obtain ⟨scan, hscan, hr⟩ := Option.bind_eq_some_iff.1 hr
    obtain ⟨rawIdx, -, hr⟩ := Option.bind_eq_some_iff.1 hr
    cases hr
    rw [Dict.get_set, if_pos rfl] at he
    obtain rfl := Option.some.inj he
    exact ⟨rfl, scan, hscan, rfl⟩

/-- `render` keeps the values of a template without safe slots escaped, and the number of `<`, exactly when no
turn of the order reads its parameter raw. -/
theorem render_escapes_iff {reg reg' : Registry} {name body : Text} {params : List Name} {entry : TemplateEntry}
    {order : List (Name × Text)} (hr : registerTemplate reg name body params = some (.ok reg'))
    (he : reg'.get name = some entry) (hs : (pipeScan body params).map (·.1) = some []) :
    (Clean (renderMarked entry.body order entry.safeParams) ∧
      (renderTemplateBody entry.body order entry.safeParams).count '<' = body.count '<') ↔
      RawKept entry.body order entry.safeParams := by
  obtain ⟨hb, scan, hscan, hsp⟩ := registerTemplate_entry hr he
  have hsafe : entry.safeParams = [] := by
    rw [hscan] at hs
    have hnil : scan.1 = [] := Option.some.inj hs
    rw [hsp, hnil]
    rfl
  have hnone : ∀ kv ∈ order, kv.1 ∉ entry.safeParams := fun kv _ => by simp [hsafe]
  have hclean := clean_renderMarked entry.body order hnone
  rw [hclean]
  refine ⟨fun h => h.1, fun h => ⟨h, ?_⟩⟩
  rw [← hb]
  exact count_of_clean (hclean.2 h)

/-! ### A value with a placeholder -/

def nameA : Name := ⟨['a'], by decide⟩

def nameB : Name := ⟨['b'], by decide⟩

def cardName : Text := "Card".toList

def cardBody : Text := "{{ a }}".toList

/-- `template Card(a: String, b: String) -> Html { {{ a }} }` -/
def card : TemplateEntry := { body := cardBody, params := [nameA, nameB], safeParams := [], rawParams := [] }

/-- The value of `a` is a raw placeholder of `b`. -/
def cardValues : List String := ["{{{ b }}}", "<"]

def cardOrder : List (Name × Text) := [nameA, nameB].zip (cardValues.map String.toList)

theorem render_escapes_card :
    (Clean (renderMarked cardBody cardOrder.reverse []) ∧
      (renderTemplateBody cardBody cardOrder.reverse []).count '<' = cardBody.count '<') ↔
      RawKept cardBody cardOrder.reverse [] := by
  have hr : registerTemplate .empty cardName cardBody [nameA, nameB] =
      some (.ok (Dict.empty.set cardName card)) := by decide +kernel
  have he : (Dict.empty.set cardName card : Registry).get cardName = some card := by decide +kernel
  have hs : (pipeScan cardBody [nameA, nameB]).map (·.1) = some [] := by decide +kernel
  exact @render_escapes_iff _ _ _ _ _ card cardOrder.reverse hr he hs

/-- The raw placeholder that comes with the value of `a` is filled at the turn of `b`. -/
theorem raw_by_value :
    registerTemplate .empty cardName cardBody [nameA, nameB] = some (.ok (Dict.empty.set cardName card)) ∧
    rawParamPositions cardBody [nameA, nameB] = some [] ∧
    pipeScan cardBody [nameA, nameB] = some ([], []) ∧
    (argVars (F := Int) "Card" card (cardValues.map .string)).toOption = some ⟨cardOrder⟩ ∧
    renderTemplateBody cardBody cardOrder card.safeParams = ['<'] ∧
    ¬ (Clean (renderMarked cardBody cardOrder card.safeParams) ∧
      (renderTemplateBody cardBody cardOrder card.safeParams).count '<' = cardBody.count '<') := by
  refine ⟨by decide, by decide, by decide, by decide, by decide, fun h => absurd h.2 (by decide)⟩

/-- Four braces are no raw slot to the tokenizer, which takes the first three, but `replace` finds one. -/
example : rawParamPositions (enclose 4 (spaced ['a'])) [nameA] = some [] ∧
    renderTemplateBody (enclose 4 (spaced ['a'])) [(nameA, ['<'])] [] = enclose 1 ['<'] := by decide

end Metalogos.Template
