import Metalogos.Schema.Validate
import Mathlib.Algebra.Group.Int.Defs

/-!
# What a schema means

`Conforms` says which values a schema describes, without the walk. `validateJson_nil_iff`: no violation is reported
exactly for those. The schema's own check lets any string stand as a `type` below the root, where the comment of
`type_matches` counts on it to refuse the unknown ones (`schema_iff`, `typo_accepted`).
-/
namespace Metalogos.Schema

open Metalogos.Lib

def typeWords : List String := ["object", "array", "string", "number", "integer", "boolean", "null"]

inductive HasType : Json → String → Prop
  | object (fields) : HasType (.obj fields) "object"
  | array (items) : HasType (.arr items) "array"
  | string (s) : HasType (.str s) "string"
  | integral (n) : HasType (.int n) "number"
  | real (text) : HasType (.real text) "number"
  | integer (n : Int) : -2 ^ 63 ≤ n → n < 2 ^ 64 → HasType (.int n) "integer"
  | boolean (b) : HasType (.bool b) "boolean"
  | null : HasType .null "null"

/-- What a schema describes; `strict` shuts out the members that `properties` does not declare. -/
inductive Conforms (x : JsonText) (strict : Bool) : Json → Json → Prop
  | intro {schema value : Json}
    (literal : ∀ en, schema.get "enum" = some (.arr en) → ∃ allowed ∈ en, same x allowed value = true)
    (type : ∀ t, schema.get "type" = some (.str t) → HasType value t)
    (properties : ∀ props fields, schema.get "properties" = some (.obj props) → value = .obj fields →
      ∀ name sub j, (name, sub) ∈ props → fields.lookup name = some j → Conforms x strict sub j)
    (declared : ∀ props fields, schema.get "properties" = some (.obj props) → value = .obj fields → strict = true →
      ∀ name j, (name, j) ∈ fields → (props.lookup name).isSome = true)
    (required : ∀ req fields, schema.get "required" = some (.arr req) → value = .obj fields →
      ∀ name, Json.str name ∈ req → (fields.lookup name).isSome = true)
    (items : ∀ sub js, schema.get "items" = some sub → value = .arr js → ∀ j ∈ js, Conforms x strict sub j) :
    Conforms x strict schema value

/-- The nodes of a schema that lie below a `properties` or an `items`. -/
inductive Below (schema : Json) : Json → Prop
  | property {props name sub} : schema.get "properties" = some (.obj props) → (name, sub) ∈ props → Below schema sub
  | items {sub} : schema.get "items" = some sub → Below schema sub
  | deepProperty {node props name sub} : Below schema node → node.get "properties" = some (.obj props) →
      (name, sub) ∈ props → Below schema sub
  | deepItems {node sub} : Below schema node → node.get "items" = some sub → Below schema sub

/-- The type word of a node is one of the seven. -/
def Known (node : Json) : Prop := ∀ t, node.get "type" = some (.str t) → t ∈ typeWords

/-- The walk along a value asks whether it has the type. -/
inductive Asked (x : JsonText) : Json → Json → String → Prop
  | here {schema value t} : schema.get "type" = some (.str t) → Asked x schema value t
  | property {schema props fields name sub j t} : schema.get "properties" = some (.obj props) → (name, sub) ∈ props →
      fields.lookup name = some j → Asked x sub j t → Asked x schema (.obj fields) t
  | items {schema sub js j t} : schema.get "items" = some sub → j ∈ js → Asked x sub j t → Asked x schema (.arr js) t

/-! ## One node -/

section

variable {x : JsonText} {rootLabel caller path : String} {strict isRoot : Bool} {schema value : Json}

theorem isInteger_iff (n : Int) :
    ((Json.int n).asI64.isSome || (Json.int n).asU64.isSome) = true ↔ -2 ^ 63 ≤ n ∧ n < 2 ^ 64 := by
  cases n with
  | ofNat n =>
    simp only [Json.asI64, Json.asU64, UInt64.size, Int.ofNat_eq_natCast, Bool.or_eq_true]
    split_ifs <;> simp <;> omega
  | negSucc n =>
    simp only [Json.asI64, Json.asU64, Bool.or_eq_true]
    split_ifs <;> simp <;> omega

theorem typeMatches_iff {t : String} : typeMatches value t = true ↔ HasType value t := by
  constructor
  · intro h
    unfold typeMatches at h
    split_ifs at h with h1 h2 h3 h4 h5 h6 h7
    · subst h1
      cases value <;> first | exact .string _ | cases h
    · subst h2
      cases value <;> first | exact .boolean _ | cases h
    · subst h3
      cases value <;> first | exact .null | cases h
    · subst h4
      cases value <;> first | exact .integral _ | exact .real _ | cases h
    · subst h5
      cases value with
      | int n =>
        obtain ⟨hlo, hhi⟩ := (isInteger_iff n).1 h
        exact .integer n hlo hhi
      | _ => cases h
    · subst h6
      cases value <;> first | exact .array _ | cases h
    · subst h7
      cases value <;> first | exact .object _ | cases h
  · intro h
    cases h with
    | integer n hlo hhi => exact (isInteger_iff n).2 ⟨hlo, hhi⟩
    | _ => simp [typeMatches, Json.asStr]

theorem get_asStr {key t : String} : (schema.get key).bind Json.asStr = some t ↔ schema.get key = some (.str t) := by
  cases hg : schema.get key with
  | none => simp
  | some j => cases j <;> simp [Json.asStr]

theorem type_iff : (∀ t, schema.get "type" = some (.str t) → HasType value t) ↔
    ∀ t ∈ (schema.get "type").bind Json.asStr, typeMatches value t = true := by
  simp only [Option.mem_def, get_asStr, typeMatches_iff]

theorem judge_nil_iff {deeper : List String} : judge x rootLabel value schema path deeper = [] ↔
    (∀ en, schema.get "enum" = some (.arr en) → ∃ allowed ∈ en, same x allowed value = true) ∧
      (∀ t, schema.get "type" = some (.str t) → HasType value t) ∧ deeper = [] := by
  rw [type_iff]
  unfold judge
  cases ht : (schema.get "type").bind Json.asStr with
  | none =>
    cases he : schema.get "enum" with
    | none => simp
    | some j =>
      cases j with
      | arr en => by_cases hany : ∃ allowed ∈ en, same x allowed value = true <;> simp [hany]
      | _ => simp
  | some t =>
    cases hm : typeMatches value t with
    | true =>
      cases he : schema.get "enum" with
      | none => simp [hm]
      | some j =>
        cases j with
        | arr en => by_cases hany : ∃ allowed ∈ en, same x allowed value = true <;> simp [hany, hm]
        | _ => simp [hm]
    | false =>
      cases he : schema.get "enum" with
      | none => simp [hm]
      | some j =>
        cases j with
        | arr en => by_cases hany : ∃ allowed ∈ en, same x allowed value = true <;> simp [hany, hm]
        | _ => simp [hm]

theorem missing_nil_iff {map : List (String × Json)} : missing rootLabel map schema path = [] ↔
    ∀ req, schema.get "required" = some (.arr req) → ∀ name, Json.str name ∈ req → (map.lookup name).isSome = true := by
  have hstr : ∀ j : Json, ∀ name, j.asStr = some name ↔ j = .str name := by
    intro j name
    cases j <;> simp [Json.asStr]
  unfold missing
  split
  · rename_i req hreq
    rw [List.flatMap_eq_nil_iff]
    constructor
    · intro h req' hreq' name hname
      rw [hreq, Option.some.injEq, Json.arr.injEq] at hreq'
      subst hreq'
      have hone := h name (List.mem_filterMap.2 ⟨_, hname, rfl⟩)
      by_contra hnone
      simp [hnone] at hone
    · intro h name hname
      obtain ⟨j, hj, hjn⟩ := List.mem_filterMap.1 hname
      rw [(hstr j name).1 hjn] at hj
      simp [h req hreq name hj]
  · rename_i hno
    simp only [true_iff]
    intro req hreq
    exact absurd hreq (hno req)

theorem undeclared_nil_iff {map props : List (String × Json)} : undeclared rootLabel map props path = [] ↔
    ∀ name j, (name, j) ∈ map → (props.lookup name).isSome = true := by
  unfold undeclared
  rw [List.flatMap_eq_nil_iff]
  constructor
  · intro h name j hmem
    have hone := h _ hmem
    by_contra hnone
    simp [hnone] at hone
  · intro h kv hmem
    simp [h kv.1 kv.2 hmem]

theorem lookup_validators (map : List (String × Json)) (name : String) :
    (validators x rootLabel strict map).lookup name = (map.lookup name).map (validateJson x rootLabel strict) := by
  induction map with
  | nil => rfl
  | cons kv rest ih =>
    obtain ⟨key, j⟩ := kv
    simp only [validators, List.lookup_cons]
    cases name == key with
    | true => rfl
    | false => exact ih

theorem ofObject_nil_iff {map : List (String × Json)} :
    ofObject rootLabel strict map (validators x rootLabel strict map) schema path = [] ↔
      (∀ props, schema.get "properties" = some (.obj props) →
        (strict = true → ∀ name j, (name, j) ∈ map → (props.lookup name).isSome = true) ∧
        ∀ name sub j, (name, sub) ∈ props → map.lookup name = some j →
          validateJson x rootLabel strict j sub s!"{path}.{name}" = []) ∧
      missing rootLabel map schema path = [] := by
  unfold ofObject
  rw [List.append_eq_nil_iff]
  refine and_congr ?_ Iff.rfl
  split
  · rename_i props hprops
    rw [List.append_eq_nil_iff, List.flatMap_eq_nil_iff]
    have hstrict : (if strict = true then undeclared rootLabel map props path else []) = [] ↔
        (strict = true → ∀ name j, (name, j) ∈ map → (props.lookup name).isSome = true) := by
      cases strict <;> simp [undeclared_nil_iff]
    rw [hstrict]
    constructor
    · rintro ⟨hdecl, hsub⟩ props' hprops'
      rw [hprops, Option.some.injEq, Json.obj.injEq] at hprops'
      subst hprops'
      refine ⟨hdecl, fun name sub j hmem hj => ?_⟩
      have hone := hsub _ hmem
      rw [lookup_validators, hj] at hone
      exact hone
    · intro h
      obtain ⟨hdecl, hsub⟩ := h props hprops
      refine ⟨hdecl, fun kv hmem => ?_⟩
      rw [lookup_validators]
      cases hj : map.lookup kv.1 with
      | none => rfl
      | some j => exact hsub kv.1 kv.2 j hmem hj
  · rename_i hno
    simp only [true_iff]
    intro props hprops
    exact absurd hprops (hno props)

theorem conforms_scalar (hobj : ∀ fields, value ≠ .obj fields) (harr : ∀ js, value ≠ .arr js) :
    Conforms x strict schema value ↔
      (∀ en, schema.get "enum" = some (.arr en) → ∃ allowed ∈ en, same x allowed value = true) ∧
        (∀ t, schema.get "type" = some (.str t) → HasType value t) := by
  constructor
  · intro h
    cases h with
    | intro literal type => exact ⟨literal, type⟩
  · intro h
    exact .intro h.1 h.2 (fun _ _ _ hv => absurd hv (hobj _)) (fun _ _ _ hv => absurd hv (hobj _))
      (fun _ _ _ hv => absurd hv (hobj _)) (fun _ _ _ hv => absurd hv (harr _))

theorem validateJson_scalar (hobj : ∀ fields, value ≠ .obj fields) (harr : ∀ js, value ≠ .arr js) :
    validateJson x rootLabel strict value schema path = judge x rootLabel value schema path [] := by
  cases value with
  | obj fields => exact absurd rfl (hobj fields)
  | arr js => exact absurd rfl (harr js)
  | _ => rw [validateJson] <;> simp

theorem mem_of_lookup {fields : List (String × Json)} {name : String} {j : Json} (h : fields.lookup name = some j) :
    (name, j) ∈ fields := by
  obtain ⟨l, l', rfl, -⟩ := List.lookup_eq_some_iff.1 h
  simp

/-! ## The walk along a value -/

mutual
theorem validateJson_nil_iff : ∀ (value schema : Json) (path : String),
    validateJson x rootLabel strict value schema path = [] ↔ Conforms x strict schema value
  | .obj map, schema, path => by
    have ih := members_nil_iff map
    rw [validateJson, judge_nil_iff, ofObject_nil_iff, missing_nil_iff]
    constructor
    · rintro ⟨literal, type, props, required⟩
      refine .intro literal type ?_ ?_ ?_ (fun _ _ _ hv => by cases hv)
      · intro ps fields hps hv name sub j hmem hj
        cases hv
        exact (ih name j (mem_of_lookup hj) sub _).1 ((props ps hps).2 name sub j hmem hj)
      · intro ps fields hps hv
        cases hv
        exact (props ps hps).1
      · intro req fields hreq hv
        cases hv
        exact required req hreq
    · intro h
      cases h with
      | intro literal type properties declared required =>
        refine ⟨literal, type, fun ps hps => ⟨declared ps map hps rfl, fun name sub j hmem hj => ?_⟩,
          fun req hreq => required req map hreq rfl⟩
        exact (ih name j (mem_of_lookup hj) sub _).2 (properties ps map hps rfl name sub j hmem hj)
  | .arr js, schema, path => by
    have ih := items_nil_iff js
    rw [validateJson, judge_nil_iff]
    constructor
    · rintro ⟨literal, type, hitems⟩
      refine .intro literal type (fun _ _ _ hv => by cases hv) (fun _ _ _ hv => by cases hv)
        (fun _ _ _ hv => by cases hv) ?_
      intro sub js' hsub hv
      cases hv
      rw [hsub] at hitems
      exact (ih sub path 0).1 hitems
    · intro h
      cases h with
      | intro literal type _ _ _ items =>
        refine ⟨literal, type, ?_⟩
        cases hsub : schema.get "items" with
        | none => rfl
        | some sub => exact (ih sub path 0).2 (items sub js hsub rfl)
  | .null, schema, path => by
    rw [validateJson_scalar (by simp) (by simp), judge_nil_iff, conforms_scalar (by simp) (by simp), eq_self, and_true]
  | .bool b, schema, path => by
    rw [validateJson_scalar (by simp) (by simp), judge_nil_iff, conforms_scalar (by simp) (by simp), eq_self, and_true]
  | .int n, schema, path => by
    rw [validateJson_scalar (by simp) (by simp), judge_nil_iff, conforms_scalar (by simp) (by simp), eq_self, and_true]
  | .real t, schema, path => by
    rw [validateJson_scalar (by simp) (by simp), judge_nil_iff, conforms_scalar (by simp) (by simp), eq_self, and_true]
  | .str s, schema, path => by
    rw [validateJson_scalar (by simp) (by simp), judge_nil_iff, conforms_scalar (by simp) (by simp), eq_self, and_true]

theorem items_nil_iff : ∀ (js : List Json) (schema : Json) (path : String) (i : Nat),
    validateItems x rootLabel strict js schema path i = [] ↔ ∀ j ∈ js, Conforms x strict schema j
  | [], _, _, _ => by simp [validateItems]
  | j :: js, schema, path, i => by
    rw [validateItems, List.append_eq_nil_iff, validateJson_nil_iff j, items_nil_iff js, List.forall_mem_cons]

theorem members_nil_iff : ∀ (map : List (String × Json)) (name : String) (j : Json), (name, j) ∈ map →
    ∀ schema path, validateJson x rootLabel strict j schema path = [] ↔ Conforms x strict schema j
  | [], _, _, h => by cases h
  | (name', j') :: rest, name, j, h => by
    intro schema path
    rcases List.mem_cons.1 h with heq | hrest
    · cases heq
      exact validateJson_nil_iff j' schema path
    · exact members_nil_iff rest name j hrest schema path
end

theorem validateJson_mono {path' : String} (h : validateJson x rootLabel true value schema path = []) :
    validateJson x rootLabel false value schema path' = [] := by
  rw [validateJson_nil_iff] at h ⊢
  induction h with
  | intro literal type _ _ required _ ihProperties ihItems =>
    exact .intro literal type ihProperties (fun _ _ _ _ hstrict => by cases hstrict) required ihItems

/-! ## The walk along a schema -/

theorem seq_ok {a b : Except String Unit} : (do a; b) = .ok () ↔ a = .ok () ∧ b = .ok () := by
  cases a with
  | error e =>
    constructor
    · intro h
      cases h
    · rintro ⟨h, -⟩
      cases h
  | ok u => exact ⟨fun h => ⟨rfl, h⟩, fun h => h.2⟩

theorem lookup_checkers (map : List (String × Json)) (name : String) :
    (checkers x caller map).lookup name =
      (map.lookup name).map fun j => ⟨checkSchemaNode x caller j false, checkProperties x caller j⟩ := by
  induction map with
  | nil => rfl
  | cons kv rest ih =>
    obtain ⟨key, j⟩ := kv
    simp only [checkers, List.lookup_cons]
    cases name == key with
    | true => rfl
    | false => exact ih

theorem eachProperty_ok {props : List (String × Json)} (h : eachProperty path (checkers x caller props) = .ok ()) :
    ∀ name sub, (name, sub) ∈ props → ∃ path', checkSchemaNode x caller sub false path' = .ok () := by
  induction props with
  | nil => intro name sub hmem; cases hmem
  | cons kv rest ih =>
    obtain ⟨key, j⟩ := kv
    rw [checkers, eachProperty, seq_ok] at h
    intro name sub hmem
    rcases List.mem_cons.1 hmem with heq | hrest
    · cases heq
      exact ⟨_, h.1⟩
    · exact ih h.2 name sub hrest

/-- What an accepted node tells of itself and of the nodes right below. -/
structure Accepted (x : JsonText) (caller : String) (schema : Json) : Prop where
  type : ∀ j, schema.get "type" = some j → ∃ t, j = .str t
  properties : ∀ props name sub, schema.get "properties" = some (.obj props) → (name, sub) ∈ props →
    ∃ path, checkSchemaNode x caller sub false path = .ok ()
  items : ∀ sub, schema.get "items" = some sub → ∃ path, checkSchemaNode x caller sub false path = .ok ()

theorem accepted (h : checkSchemaNode x caller schema isRoot path = .ok ()) : Accepted x caller schema := by
  cases schema with
  | obj map =>
    simp only [checkSchemaNode, checkMap, seq_ok, onMember, lookup_checkers] at h
    obtain ⟨-, -, htype, hprops, -, hitems, -⟩ := h
    refine ⟨fun j hj => ?_, fun props name sub hp hmem => ?_, fun sub hsub => ?_⟩
    · have hj' : map.lookup "type" = some j := hj
      rw [checkType, hj'] at htype
      cases j <;> first | exact ⟨_, rfl⟩ | cases htype
    · have hp' : map.lookup "properties" = some (.obj props) := hp
      rw [hp'] at hprops
      exact eachProperty_ok hprops name sub hmem
    · have hsub' : map.lookup "items" = some sub := hsub
      rw [hsub'] at hitems
      exact ⟨_, hitems⟩
  | _ => simp [checkSchemaNode] at h

theorem accepted_root (h : checkSchemaNode x caller schema true path = .ok ()) :
    schema.get "type" = some (.str "object") := by
  cases schema with
  | obj map =>
    simp only [checkSchemaNode, checkMap, seq_ok] at h
    obtain ⟨-, hroot, -⟩ := h
    cases ht : rootType map == some "object" with
    | true => exact get_asStr.1 (beq_iff_eq.1 ht)
    | false => simp [checkRoot, refuseIf, bne, ht] at hroot
  | _ => simp [checkSchemaNode] at h

theorem accepted_below {node : Json} (hschema : Accepted x caller schema) (h : Below schema node) :
    Accepted x caller node := by
  induction h with
  | property hp hmem =>
    obtain ⟨path, hok⟩ := hschema.properties _ _ _ hp hmem
    exact accepted hok
  | items hsub =>
    obtain ⟨path, hok⟩ := hschema.items _ hsub
    exact accepted hok
  | deepProperty _ hp hmem ih =>
    obtain ⟨path, hok⟩ := ih.properties _ _ _ hp hmem
    exact accepted hok
  | deepItems _ hsub ih =>
    obtain ⟨path, hok⟩ := ih.items _ hsub
    exact accepted hok

theorem below_trans {mid node : Json} (h : Below schema mid) (h' : Below mid node) : Below schema node := by
  induction h' with
  | property hp hmem => exact .deepProperty h hp hmem
  | items hsub => exact .deepItems h hsub
  | deepProperty _ hp hmem ih => exact .deepProperty ih hp hmem
  | deepItems _ hsub ih => exact .deepItems ih hsub

theorem asked_node {t : String} (h : Asked x schema value t) :
    ∃ node, (node = schema ∨ Below schema node) ∧ node.get "type" = some (.str t) := by
  induction h with
  | here ht => exact ⟨_, .inl rfl, ht⟩
  | property hp hmem _ _ ih =>
    obtain ⟨node, hnode, ht⟩ := ih
    refine ⟨node, .inr ?_, ht⟩
    obtain rfl | hbelow := hnode
    · exact .property hp hmem
    · exact below_trans (.property hp hmem) hbelow
  | items hsub _ _ ih =>
    obtain ⟨node, hnode, ht⟩ := ih
    refine ⟨node, .inr ?_, ht⟩
    obtain rfl | hbelow := hnode
    · exact .items hsub
    · exact below_trans (.items hsub) hbelow

end

/-- What is said of a schema: the walk along a value finds no fault exactly where the value conforms, a strict
acceptance is one, and every node has a known type word or none, so that no other is asked for. -/
structure Sound (x : JsonText) (rootLabel : String) (schema : Json) : Prop where
  exact : ∀ strict value, validateJson x rootLabel strict value schema "$" = [] ↔ Conforms x strict schema value
  mono : ∀ value, validateJson x rootLabel true value schema "$" = [] → validateJson x rootLabel false value schema "$" = []
  known : ∀ node, node = schema ∨ Below schema node → ∀ j, node.get "type" = some j → ∃ t ∈ typeWords, j = .str t
  asked : ∀ value t, Asked x schema value t → t ∈ typeWords

/-- An accepted schema is sound exactly where no node below the root has a type word of its own making. -/
theorem schema_iff {x : JsonText} {caller rootLabel : String} {schema : Json}
    (h : checkSchemaSubset x schema caller = .ok ()) :
    Sound x rootLabel schema ↔ ∀ node, Below schema node → Known node := by
  have hroot := accepted_root h
  have hself := accepted h
  constructor
  · intro hsound node hbelow t ht
    obtain ⟨t', hmem, heq⟩ := hsound.known node (.inr hbelow) _ ht
    cases heq
    exact hmem
  · intro hknown
    have hall : ∀ node, node = schema ∨ Below schema node → Known node := by
      intro node hnode t ht
      obtain rfl | hbelow := hnode
      · rw [hroot] at ht
        cases ht
        decide
      · exact hknown node hbelow t ht
    refine ⟨fun strict value => validateJson_nil_iff value schema "$", fun value hstrict => validateJson_mono hstrict,
      fun node hnode j hj => ?_, fun value t hasked => ?_⟩
    · have hacc : Accepted x caller node := by
        obtain rfl | hbelow := hnode
        · exact hself
        · exact accepted_below hself hbelow
      obtain ⟨t, rfl⟩ := hacc.type j hj
      exact ⟨t, hall node hnode t hj, rfl⟩
    · obtain ⟨node, hnode, ht⟩ := asked_node hasked
      exact hall node hnode t ht

/-- The names alone. -/
def plainText : JsonText := ⟨jsonTypeName, fun _ => "[..]", fun t => t.getD "None", fun s t => s == t⟩

def typoSchema (word : String) : Json :=
  .obj [("properties", .obj [("age", .obj [("type", .str word)])]), ("type", .str "object")]

theorem typoSchema_accepted (word : String) : checkSchemaSubset plainText (typoSchema word) "json_validate" = .ok () := by
  rfl

theorem below_typoSchema {word : String} {node : Json} (h : Below (typoSchema word) node) :
    node = .obj [("type", .str word)] := by
  induction h with
  | property hp hmem =>
    cases hp
    cases List.mem_singleton.1 hmem
    rfl
  | items hsub => cases hsub
  | deepProperty _ hp _ ih =>
    subst ih
    cases hp
  | deepItems _ hsub ih =>
    subst ih
    cases hsub

theorem schema_iff_age : Sound plainText "value" (typoSchema "integer") := by
  refine (schema_iff (typoSchema_accepted "integer")).2 fun node hbelow t ht => ?_
  rw [below_typoSchema hbelow] at ht
  cases ht
  decide

/-- A misspelled type of a property is accepted, and a value leads to the branch that the comment rules out. -/
theorem typo_accepted : ¬ ∀ (x : JsonText) (caller rootLabel : String) (schema : Json),
    checkSchemaSubset x schema caller = .ok () → Sound x rootLabel schema := by
  intro hall
  have hmem := (hall _ _ "value" _ (typoSchema_accepted "integr")).asked (.obj [("age", .int 3)]) "integr"
    (.property rfl (List.mem_singleton_self _) rfl (.here rfl))
  revert hmem
  decide

end Metalogos.Schema
