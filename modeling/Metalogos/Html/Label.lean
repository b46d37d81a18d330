import Metalogos.Lang.Syntax

/-!
# The label walk of the HTML lane

`src/html_label.rs`: one walk for two questions. What does a variable hold that is bound to an expression
(`bindingLabel`), and does an argument of a sink carry untrusted text (the mode `sink`)? The walk answers with
the first type it meets. For the binding question this makes the answer depend on what stands to the left: the parts
of an expression are listed in the order of the walk (`parts`), and an untrusted variable shows in the answer exactly
when no part before it answers otherwise (`bindingLabel_untrusted`).
-/
namespace Metalogos.Html

open Metalogos.Lang

variable {F : Type}

/-- mirrors src/builtins/sig_types.rs:65-73 -/
inductive Label where
  | internal
  | priv
  | untrusted
  deriving DecidableEq, Repr

/-- The types the walk makes or tells apart; `plain` is any other spelling a variable may have.
mirrors src/builtins/sig_types.rs:113-140 -/
inductive Ty where
  | string
  | bool
  | plain (spelling : String)
  | labeled (inner : Ty) (label : Label)
  deriving DecidableEq, Repr

def Ty.isUntrusted : Ty → Bool
  | .labeled _ .untrusted => true
  | _ => false

/-- mirrors src/html_label.rs:137-141 -/
def llmSourceType : Ty := .labeled .string .untrusted

/-- mirrors src/html_label.rs:143-150 -/
def userInputType : Ty := .labeled .string .priv

/-- mirrors src/html_label.rs:158-182 -/
inductive WalkMode where
  | bindingTop
  | bindingNested
  | sink
  deriving DecidableEq, Repr

/-- What the walk looks up: the types of variables, the learnable patterns, and the raw positions of the templates
that are declared, if these have been collected. -/
structure Facts where
  vars : String → Option Ty
  learnable : String → Bool
  renderRaw : Option (String → Option (List Nat))

/-- mirrors src/html_label.rs:119-129 -/
def resolveRawPositions (facts : Facts) : Option (Expr F) → Option (List Nat)
  | some (.stringLit value) => facts.renderRaw.bind fun map => map value
  | some (.ident name) => facts.renderRaw.bind fun map => map name
  | _ => none

def taintNestingMaxDepth : Nat := 3

def topSources : List String := ["call_llm", "call_claude", "call_llm_schema", "reflex_generate"]

def userSources : List String :=
  ["form_data", "json_body", "query_param", "request_header", "mcp_call", "html_select", "html_text", "html_links",
    "feed_parse", "sitemap_parse", "xml_parse"]

def sinkSources : List String := ["call_llm", "call_claude", "reflex_generate"]

/-- The answer for a call that is a source in this mode.
mirrors src/html_label.rs:225-275 -/
def sourceOf (facts : Facts) (mode : WalkMode) (depth : Nat) (name : String) : Option Ty :=
  if (mode = .bindingTop ∨ mode = .sink ∧ depth = 0) ∧ facts.learnable name then some llmSourceType
  else
    match mode with
    | .bindingTop =>
      if name ∈ topSources then some llmSourceType else if name ∈ userSources then some userInputType else none
    | .bindingNested => if name = "reflex_generate" then some llmSourceType else none
    | .sink => if name ∈ sinkSources then some llmSourceType else none

/-- The arguments of a call are not walked as tops: a top call that nothing matches is walked again as a nested one. -/
def WalkMode.down : WalkMode → WalkMode
  | .bindingTop => .bindingNested
  | mode => mode

/-- What a sanitizer answers a binding walk; the sink sees nothing. -/
def sanitized (mode : WalkMode) (ty : Ty) : Option Ty := if mode = .sink then none else some ty

mutual
/-- mirrors src/html_label.rs:191-427 -/
def walk (facts : Facts) : Expr F → WalkMode → Nat → Option Ty
  | .ident name, mode, depth =>
    if mode = .sink ∧ taintNestingMaxDepth < depth then none
    else if mode = .sink then (facts.vars name).filter Ty.isUntrusted
    else facts.vars name
  | .fnCall name args _, mode, depth =>
    if mode = .sink ∧ taintNestingMaxDepth < depth then none
    else
      (sourceOf facts mode depth name).or <|
        if name = "escape_html" then sanitized mode .string
        else if name = "render" then
          let raw := resolveRawPositions facts args.head?
          if mode = .sink then walkSlots facts raw args mode (depth + 1)
          else
            ((walkSlots facts raw args .bindingNested (depth + 1)).map fun _ => llmSourceType).or (some .string)
        else if name = "ct_eq" then sanitized mode .bool
        else if name = "redact" ∧ mode ≠ .sink then walkFirst facts args .bindingNested depth
        else walkList facts args mode.down (depth + 1)
  | .binaryOp left _ right, mode, depth =>
    if mode = .sink ∧ taintNestingMaxDepth < depth then none
    else (walk facts left mode (depth + 1)).or (walk facts right mode (depth + 1))
  | .fieldAccess object _, mode, depth =>
    if mode = .sink ∧ taintNestingMaxDepth < depth then none else walk facts object mode (depth + 1)
  | .indexAccess object index, mode, depth =>
    if mode = .sink ∧ taintNestingMaxDepth < depth then none
    else if mode = .sink then (walk facts object mode (depth + 1)).or (walk facts index mode (depth + 1))
    else walk facts index mode depth
  | .list items, mode, depth =>
    if mode = .sink ∧ taintNestingMaxDepth < depth then none else walkList facts items mode (depth + 1)
  | .ifElse condition thenBranch elseBranch, mode, depth =>
    if mode = .sink ∧ taintNestingMaxDepth < depth then none
    else if mode = .sink then
      (walk facts condition mode (depth + 1)).or
        ((walk facts thenBranch mode (depth + 1)).or (walk facts elseBranch mode (depth + 1)))
    else (walk facts thenBranch mode depth).or (walk facts elseBranch mode depth)
  | _, _, _ => none

/-- The first answer of a list. -/
def walkList (facts : Facts) : List (Expr F) → WalkMode → Nat → Option Ty
  | [], _, _ => none
  | e :: es, mode, depth => (walk facts e mode depth).or (walkList facts es mode depth)

def walkFirst (facts : Facts) : List (Expr F) → WalkMode → Nat → Option Ty
  | [], _, _ => none
  | e :: _, mode, depth => walk facts e mode depth

/-- The slots of a template: the arguments behind its name. -/
def walkSlots (facts : Facts) (raw : Option (List Nat)) : List (Expr F) → WalkMode → Nat → Option Ty
  | [], _, _ => none
  | _ :: es, mode, depth => walkRaw facts raw es 0 mode depth

/-- The first answer at a raw position; of a template that is not known every position is raw. -/
def walkRaw (facts : Facts) (raw : Option (List Nat)) : List (Expr F) → Nat → WalkMode → Nat → Option Ty
  | [], _, _, _ => none
  | e :: es, idx, mode, depth =>
    (if raw.all (idx ∈ ·) then walk facts e mode depth else none).or (walkRaw facts raw es (idx + 1) mode depth)
end

/-- mirrors src/html_label.rs:429-438 -/
def bindingLabel (facts : Facts) (value : Expr F) : Option Ty := walk facts value .bindingTop 0

/-! ## The parts of an expression -/

def sanitizers : List String := ["escape_html", "render", "ct_eq"]

/-- Where the binding walk stops, and whether it came there through a `redact`. -/
structure Part (F : Type) where
  expr : Expr F
  masked : Bool

mutual
/-- In the order of the walk. -/
def parts (masked : Bool) : Expr F → List (Part F)
  | .fnCall name args line =>
    if name ∈ sanitizers then [⟨.fnCall name args line, masked⟩]
    else if name = "redact" then firstParts args
    else listParts masked args
  | .binaryOp left _ right => parts masked left ++ parts masked right
  | .fieldAccess object _ => parts masked object
  | .indexAccess _ index => parts masked index
  | .list items => listParts masked items
  | .ifElse _ thenBranch elseBranch => parts masked thenBranch ++ parts masked elseBranch
  | e => [⟨e, masked⟩]

def listParts (masked : Bool) : List (Expr F) → List (Part F)
  | [] => []
  | e :: es => parts masked e ++ listParts masked es

def firstParts : List (Expr F) → List (Part F)
  | [] => []
  | e :: _ => parts true e
end

mutual
/-- No call of a source. -/
def sourceFree (facts : Facts) : Expr F → Bool
  | .fnCall name args _ =>
    !facts.learnable name && (name ∉ topSources) && (name ∉ userSources) && sourceFreeList facts args
  | .binaryOp left _ right => sourceFree facts left && sourceFree facts right
  | .fieldAccess object _ => sourceFree facts object
  | .indexAccess object index => sourceFree facts object && sourceFree facts index
  | .list items => sourceFreeList facts items
  | .ifElse condition thenBranch elseBranch =>
    sourceFree facts condition && sourceFree facts thenBranch && sourceFree facts elseBranch
  | _ => true

def sourceFreeList (facts : Facts) : List (Expr F) → Bool
  | [] => true
  | e :: es => sourceFree facts e && sourceFreeList facts es
end

mutual
/-- An untrusted variable occurs outside every sanitizer and `redact`, condition of an if-else, object of an index
access and struct literal. -/
def occursOpen (facts : Facts) : Expr F → Bool
  | .ident name => (facts.vars name).any Ty.isUntrusted
  | .fnCall name args _ => (name ∉ sanitizers) && (name ≠ "redact") && occursOpenList facts args
  | .binaryOp left _ right => occursOpen facts left || occursOpen facts right
  | .fieldAccess object _ => occursOpen facts object
  | .indexAccess _ index => occursOpen facts index
  | .list items => occursOpenList facts items
  | .ifElse _ thenBranch elseBranch => occursOpen facts thenBranch || occursOpen facts elseBranch
  | _ => false

def occursOpenList (facts : Facts) : List (Expr F) → Bool
  | [] => false
  | e :: es => occursOpen facts e || occursOpenList facts es
end

/-- What the binding walk answers at a part. -/
def Part.answer (facts : Facts) (p : Part F) : Option Ty := walk facts p.expr .bindingNested 0

/-- An untrusted variable in the open. -/
def Part.isOpen (facts : Facts) (p : Part F) : Bool :=
  !p.masked && match p.expr with
    | .ident name => (facts.vars name).any Ty.isUntrusted
    | _ => false

variable {facts : Facts}

mutual
/-- The nested walk has no depth bound. -/
theorem walk_depth : ∀ (e : Expr F) (d d' : Nat), walk facts e .bindingNested d = walk facts e .bindingNested d'
  | .ident _, _, _ => by simp [walk]
  | .fnCall name args _, d, d' => by
    have hsource : sourceOf facts .bindingNested d name = sourceOf facts .bindingNested d' name := by simp [sourceOf]
    simp [walk, hsource, WalkMode.down, walkFirst_depth args d d', walkList_depth args (d + 1) (d' + 1),
      walkSlots_depth args _ (d + 1) (d' + 1)]
  | .binaryOp l _ r, d, d' => by simp [walk, walk_depth l (d + 1) (d' + 1), walk_depth r (d + 1) (d' + 1)]
  | .fieldAccess o _, d, d' => by simp [walk, walk_depth o (d + 1) (d' + 1)]
  | .indexAccess _ i, d, d' => by simp [walk, walk_depth i d d']
  | .list items, d, d' => by simp [walk, walkList_depth items (d + 1) (d' + 1)]
  | .ifElse _ t e, d, d' => by simp [walk, walk_depth t d d', walk_depth e d d']
  | .stringLit _, _, _ | .floatLit _, _, _ | .boolLit _, _, _ | .qualifiedCall _ _ _, _, _ | .structLit _ _, _, _
  | .blockIfElse _ _ _, _, _ | .matchExpr _ _, _, _ | .try_ _, _, _ | .handleSource _, _, _
  | .provBind _ _, _, _ => rfl

theorem walkList_depth : ∀ (es : List (Expr F)) (d d' : Nat),
    walkList facts es .bindingNested d = walkList facts es .bindingNested d'
  | [], _, _ => rfl
  | e :: es, d, d' => by rw [walkList, walkList, walk_depth e d d', walkList_depth es d d']

theorem walkFirst_depth : ∀ (es : List (Expr F)) (d d' : Nat),
    walkFirst facts es .bindingNested d = walkFirst facts es .bindingNested d'
  | [], _, _ => rfl
  | e :: _, d, d' => walk_depth e d d'

theorem walkSlots_depth : ∀ (es : List (Expr F)) (raw : Option (List Nat)) (d d' : Nat),
    walkSlots facts raw es .bindingNested d = walkSlots facts raw es .bindingNested d'
  | [], _, _, _ => rfl
  | _ :: es, raw, d, d' => walkRaw_depth es raw 0 d d'

theorem walkRaw_depth : ∀ (es : List (Expr F)) (raw : Option (List Nat)) (idx d d' : Nat),
    walkRaw facts raw es idx .bindingNested d = walkRaw facts raw es idx .bindingNested d'
  | [], _, _, _, _ => rfl
  | e :: es, raw, idx, d, d' => by
    rw [walkRaw, walkRaw, walk_depth e d d', walkRaw_depth es raw (idx + 1) d d']
end

/-! ## The walk goes through the parts -/

theorem sourceOf_free {name : String} {args : List (Expr F)} {line : Nat} (mode : WalkMode) (d : Nat)
    (h : sourceFree facts (.fnCall name args line) = true) (hmode : mode ≠ .sink) :
    sourceOf facts mode d name = none := by
  simp only [sourceFree, Bool.and_eq_true, Bool.not_eq_true', decide_eq_true_eq] at h
  obtain ⟨⟨⟨hlearn, htop⟩, huser⟩, -⟩ := h
  unfold sourceOf
  rw [if_neg (by simp [hlearn])]
  cases mode with
  | bindingTop =>
    dsimp only
    rw [if_neg htop, if_neg huser]
  | bindingNested =>
    have hne : name ≠ "reflex_generate" := by
      rintro rfl
      exact htop (by decide)
    dsimp only
    rw [if_neg hne]
  | sink => exact absurd rfl hmode

/-- A call that is no source is walked as a nested one. -/
theorem walk_call {name : String} {args : List (Expr F)} {line : Nat} {mode : WalkMode} (d : Nat)
    (h : sourceFree facts (.fnCall name args line) = true) (hmode : mode ≠ .sink) :
    walk facts (.fnCall name args line) mode d = walk facts (.fnCall name args line) .bindingNested d := by
  have hdown : mode.down = .bindingNested := by
    cases mode with
    | sink => exact absurd rfl hmode
    | _ => rfl
  have hnested : WalkMode.bindingNested.down = .bindingNested := rfl
  simp only [walk, sourceOf_free mode d h hmode, sourceOf_free .bindingNested d h nofun, hmode, hdown, hnested,
    sanitized, false_and, if_false, ne_eq, not_false_eq_true, and_true, reduceCtorEq]

mutual
/-- The binding walk answers with the first part that has an answer. -/
theorem walk_parts : ∀ (e : Expr F) (mode : WalkMode) (d : Nat) (masked : Bool), mode ≠ .sink →
    sourceFree facts e = true → walk facts e mode d = (parts masked e).findSome? (Part.answer facts)
  | .ident name, mode, d, masked, hmode, _ => by
    cases hv : facts.vars name <;> simp [walk, parts, Part.answer, hmode, hv]
  | .fnCall name args line, mode, d, masked, hmode, h => by
    rw [walk_call d h hmode]
    have hargs : sourceFreeList facts args = true := by
      simp only [sourceFree, Bool.and_eq_true] at h
      exact h.2
    unfold parts
    split_ifs with hsan hredact
    · rw [walk_depth _ d 0]
      cases hw : walk facts (.fnCall name args line) .bindingNested 0 <;> simp [Part.answer, hw]
    · subst hredact
      rw [← walkFirst_parts args d hargs]
      simp [walk, sourceOf_free .bindingNested d h nofun]
    · obtain ⟨hesc, hrender, hct⟩ : name ≠ "escape_html" ∧ name ≠ "render" ∧ name ≠ "ct_eq" := by
        simpa [sanitizers] using hsan
      rw [← walkList_parts args .bindingNested (d + 1) masked nofun hargs]
      simp [walk, sourceOf_free .bindingNested d h nofun, hesc, hrender, hct, hredact, WalkMode.down]
  | .binaryOp l op r, mode, d, masked, hmode, h => by
    simp only [sourceFree, Bool.and_eq_true] at h
    rw [walk, parts, List.findSome?_append, ← walk_parts l mode (d + 1) masked hmode h.1,
      ← walk_parts r mode (d + 1) masked hmode h.2, if_neg (by simp [hmode])]
  | .fieldAccess o field, mode, d, masked, hmode, h => by
    rw [walk, parts, ← walk_parts o mode (d + 1) masked hmode h, if_neg (by simp [hmode])]
  | .indexAccess o i, mode, d, masked, hmode, h => by
    simp only [sourceFree, Bool.and_eq_true] at h
    rw [walk, parts, ← walk_parts i mode d masked hmode h.2, if_neg (by simp [hmode]), if_neg hmode]
  | .list items, mode, d, masked, hmode, h => by
    rw [walk, parts, ← walkList_parts items mode (d + 1) masked hmode h, if_neg (by simp [hmode])]
  | .ifElse cnd t e, mode, d, masked, hmode, h => by
    simp only [sourceFree, Bool.and_eq_true] at h
    rw [walk, parts, List.findSome?_append, ← walk_parts t mode d masked hmode h.1.2,
      ← walk_parts e mode d masked hmode h.2, if_neg (by simp [hmode]), if_neg hmode]
  | .stringLit _, _, _, _, _, _ | .floatLit _, _, _, _, _, _ | .boolLit _, _, _, _, _, _
  | .qualifiedCall _ _ _, _, _, _, _, _ | .structLit _ _, _, _, _, _, _ | .blockIfElse _ _ _, _, _, _, _, _
  | .matchExpr _ _, _, _, _, _, _ | .try_ _, _, _, _, _, _ | .handleSource _, _, _, _, _, _
  | .provBind _ _, _, _, _, _, _ => rfl

theorem walkList_parts : ∀ (es : List (Expr F)) (mode : WalkMode) (d : Nat) (masked : Bool), mode ≠ .sink →
    sourceFreeList facts es = true → walkList facts es mode d = (listParts masked es).findSome? (Part.answer facts)
  | [], _, _, _, _, _ => rfl
  | e :: es, mode, d, masked, hmode, h => by
    simp only [sourceFreeList, Bool.and_eq_true] at h
    rw [walkList, listParts, List.findSome?_append, ← walk_parts e mode d masked hmode h.1,
      ← walkList_parts es mode d masked hmode h.2]

theorem walkFirst_parts : ∀ (es : List (Expr F)) (d : Nat), sourceFreeList facts es = true →
    walkFirst facts es .bindingNested d = (firstParts es).findSome? (Part.answer facts)
  | [], _, _ => rfl
  | e :: es, d, h => by
    simp only [sourceFreeList, Bool.and_eq_true] at h
    rw [walkFirst, firstParts, walk_parts e .bindingNested d true nofun h.1]
end

mutual
theorem masked_parts : ∀ (e : Expr F), ∀ p ∈ parts true e, p.masked = true
  | .fnCall name args line, p, hp => by
    unfold parts at hp
    split_ifs at hp
    · rw [List.mem_singleton.1 hp]
    · exact masked_firstParts args p hp
    · exact masked_listParts args p hp
  | .binaryOp l _ r, p, hp => by
    rcases List.mem_append.1 hp with hp | hp
    · exact masked_parts l p hp
    · exact masked_parts r p hp
  | .fieldAccess o _, p, hp => masked_parts o p hp
  | .indexAccess _ i, p, hp => masked_parts i p hp
  | .list items, p, hp => masked_listParts items p hp
  | .ifElse _ t e, p, hp => by
    rcases List.mem_append.1 hp with hp | hp
    · exact masked_parts t p hp
    · exact masked_parts e p hp
  | .ident _, p, hp | .stringLit _, p, hp | .floatLit _, p, hp | .boolLit _, p, hp | .qualifiedCall _ _ _, p, hp
  | .structLit _ _, p, hp | .blockIfElse _ _ _, p, hp | .matchExpr _ _, p, hp | .try_ _, p, hp
  | .handleSource _, p, hp | .provBind _ _, p, hp => by rw [List.mem_singleton.1 hp]

theorem masked_listParts : ∀ (es : List (Expr F)), ∀ p ∈ listParts true es, p.masked = true
  | [], _, hp => absurd hp List.not_mem_nil
  | e :: es, p, hp => by
    rcases List.mem_append.1 hp with hp | hp
    · exact masked_parts e p hp
    · exact masked_listParts es p hp

theorem masked_firstParts : ∀ (es : List (Expr F)), ∀ p ∈ firstParts es, p.masked = true
  | [], _, hp => absurd hp List.not_mem_nil
  | e :: _, p, hp => masked_parts e p hp
end

mutual
theorem occursOpen_parts : ∀ (e : Expr F), occursOpen facts e = (parts false e).any (Part.isOpen facts)
  | .ident name => by simp [occursOpen, parts, Part.isOpen]
  | .fnCall name args line => by
    unfold occursOpen parts
    split_ifs with hsan hredact
    · simp [hsan, Part.isOpen]
    · have hfirst : (firstParts args).any (Part.isOpen facts) = false := by
        rw [List.any_eq_false]
        intro p hp
        simp [Part.isOpen, masked_firstParts args p hp]
      simp [hredact, hfirst]
    · simp [hsan, hredact, occursOpen_listParts args]
  | .binaryOp l _ r => by simp [occursOpen, parts, occursOpen_parts l, occursOpen_parts r]
  | .fieldAccess o _ => by simp [occursOpen, parts, occursOpen_parts o]
  | .indexAccess _ i => by simp [occursOpen, parts, occursOpen_parts i]
  | .list items => by simp [occursOpen, parts, occursOpen_listParts items]
  | .ifElse _ t e => by simp [occursOpen, parts, occursOpen_parts t, occursOpen_parts e]
  | .stringLit _ | .floatLit _ | .boolLit _ | .qualifiedCall _ _ _ | .structLit _ _ | .blockIfElse _ _ _
  | .matchExpr _ _ | .try_ _ | .handleSource _ | .provBind _ _ => by simp [occursOpen, parts, Part.isOpen]

theorem occursOpen_listParts : ∀ (es : List (Expr F)),
    occursOpenList facts es = (listParts false es).any (Part.isOpen facts)
  | [] => rfl
  | e :: es => by simp [occursOpenList, listParts, occursOpen_parts e, occursOpen_listParts es]
end

/-- An untrusted variable is an untrusted answer. -/
theorem Part.answer_open {p : Part F} (h : p.isOpen facts = true) :
    ∃ ty, p.answer facts = some ty ∧ ty.isUntrusted = true := by
  obtain ⟨e, masked⟩ := p
  simp only [Part.isOpen, Bool.and_eq_true] at h
  cases e with
  | ident name =>
    obtain ⟨ty, hty, hun⟩ := (Option.any_eq_true _ _).1 h.2
    exact ⟨ty, by simpa [Part.answer, walk] using hty, hun⟩
  | _ => cases h.2

/-! ## The binding question -/

/-- No part before an untrusted variable in the open answers first with a type that is not untrusted. -/
def ClearedBefore (facts : Facts) (e : Expr F) : Prop :=
  ∀ pre p post, parts false e = pre ++ p :: post → p.isOpen facts = true →
    ∀ ty, pre.findSome? (Part.answer facts) = some ty → ty.isUntrusted = true

/-- An untrusted variable in the open makes the binding untrusted exactly when the parts to its left let it. -/
theorem bindingLabel_untrusted (facts : Facts) (e : Expr F) (h : sourceFree facts e = true) :
    (occursOpen facts e = true → (bindingLabel facts e).any Ty.isUntrusted = true) ↔ ClearedBefore facts e := by
  have hwalk : bindingLabel facts e = (parts false e).findSome? (Part.answer facts) :=
    walk_parts e .bindingTop 0 false nofun h
  constructor
  · intro hprop pre p post hparts hopen ty hty
    have hoccurs : occursOpen facts e = true := by
      rw [occursOpen_parts, hparts]
      simp [hopen]
    have hun := hprop hoccurs
    rw [hwalk, hparts, List.findSome?_append, hty] at hun
    exact hun
  · intro hcleared hoccurs
    rw [occursOpen_parts, List.any_eq_true] at hoccurs
    obtain ⟨p, hp, hopen⟩ := hoccurs
    obtain ⟨pre, post, hparts⟩ := List.append_of_mem hp
    rw [hwalk, hparts, List.findSome?_append]
    cases hpre : pre.findSome? (Part.answer facts) with
    | some ty => exact hcleared pre p post hparts hopen ty hpre
    | none =>
      obtain ⟨ty, hty, hun⟩ := Part.answer_open hopen
      simpa [hty] using hun

namespace Sample

def untrustedB : Facts where
  vars name := if name = "b" then some llmSourceType else none
  learnable _ := false
  renderRaw := none

/-- `"<p>" + b + escape_html(a)` -/
def after : Expr Int := .binaryOp (.binaryOp (.stringLit "<p>") .add (.ident "b")) .add
  (.fnCall "escape_html" [.ident "a"] 1)

/-- `escape_html(a) + b` -/
def before : Expr Int := .binaryOp (.fnCall "escape_html" [.ident "a"] 1) .add (.ident "b")

end Sample

theorem bindingLabel_untrusted_after :
    (occursOpen Sample.untrustedB Sample.after = true →
      (bindingLabel Sample.untrustedB Sample.after).any Ty.isUntrusted = true) ↔
    ClearedBefore Sample.untrustedB Sample.after :=
  bindingLabel_untrusted Sample.untrustedB Sample.after (by decide)

theorem bindingLabel_cleared : ¬ ∀ (facts : Facts) (e : Expr Int),
    (∀ name ty, facts.vars name ≠ some (.labeled ty .priv)) → sourceFree facts e = true →
      occursOpen facts e = true → (bindingLabel facts e).any Ty.isUntrusted = true := by
  intro h
  have hpriv : ∀ name ty, Sample.untrustedB.vars name ≠ some (.labeled ty .priv) := by
    intro name ty
    unfold Sample.untrustedB
    dsimp only
    split_ifs <;> simp [llmSourceType]
  exact absurd (h Sample.untrustedB Sample.before hpriv (by decide) (by decide)) (by decide)

end Metalogos.Html
