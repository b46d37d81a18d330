import Metalogos.Lib.Dict
import Metalogos.Lib.Fallible
import Metalogos.Server.Decode
import Metalogos.Server.Request
import Mathlib.Data.List.Pairwise

/-!
# Route templates that can match one path

Two templates share a path where no position has two different literals and the shorter one, if one is shorter, ends in
a wildcard. `templates_overlap` stops at the first position whose segments are not of one kind, and of templates of
different lengths it reports none: a wildcard at the end of the longer one takes no segment of a path that the shorter
one matches, and the test for this is never passed.

`route_conflicts_iff`: the check at the start is exact, and then the order of the routes does not show, where it reports
a pair rightly, or no pair is a mistake, or mistakes of both kinds are there.
-/
namespace Metalogos.Server

open Metalogos.Lib

abbrev Params := Dict (List Char) (List Char)

/-- The parameters that a path binds, on those bound so far.
mirrors metalogos-server/src/server.rs:195-246 -/
def bindPathAgainstTemplate : List (List Char) → List PathSegment → Params → Option Params
  | [], [], params => some params
  | u :: us, .wildcard name :: _, params => some (params.set name (urlDecodeFallback (['/'].intercalate (u :: us))))
  | u :: us, .literal s :: t, params => if u = s then bindPathAgainstTemplate us t params else none
  | u :: us, .param name :: t, params => bindPathAgainstTemplate us t (params.set name (urlDecodeFallback u))
  | _, _, _ => none

/-- mirrors metalogos-server/src/server.rs:256-291 -/
def bindTemplatedRoute (uriPath : List Char) (method : String) :
    List Route → Except TemplateError (Option (Route × Params))
  | [] => .ok none
  | r :: routes =>
    if r.method ≠ method then bindTemplatedRoute uriPath method routes
    else if isTemplatedRoute r.path = false then bindTemplatedRoute uriPath method routes
    else
      match parseRouteTemplate r.path with
      | .error e => .error e
      | .ok template =>
        match bindPathAgainstTemplate (pathSegments uriPath) template .empty with
        | some params => .ok (some (r, params))
        | none => bindTemplatedRoute uriPath method routes

/-! ## The check -/

/-- Of two templates of one length. -/
def sameLengthOverlap : List PathSegment → List PathSegment → Bool
  | .literal a :: t1, .literal b :: t2 => if a = b then sameLengthOverlap t1 t2 else false
  | .param _ :: t1, .param _ :: t2 => sameLengthOverlap t1 t2
  | .wildcard _ :: t1, .wildcard _ :: t2 => sameLengthOverlap t1 t2
  | _ :: _, _ :: _ => true
  | _, _ => true

/-- Of what stands before the wildcard of the longer template, and the shorter one. -/
def prefixOverlap : List PathSegment → List PathSegment → Bool
  | .literal a :: t1, .literal b :: t2 => if a = b then prefixOverlap t1 t2 else false
  | .param _ :: t1, .param _ :: t2 => prefixOverlap t1 t2
  | _ :: _, _ :: _ => true
  | _, _ => true

/-- mirrors metalogos-server/src/server.rs:350-385 -/
def templatesOverlap (t1 t2 : List PathSegment) : Bool :=
  if t1.length = t2.length then sameLengthOverlap t1 t2
  else
    let (longer, shorter) := if t1.length > t2.length then (t1, t2) else (t2, t1)
    match longer.getLast? with
    | some (.wildcard _) =>
      let prefixLen := longer.length - 1
      if prefixLen ≥ shorter.length then false else prefixOverlap (longer.take prefixLen) shorter
    | _ => false

/-- The template of a route that has one and parses. -/
def templateOf (r : Route) : Option (List PathSegment) :=
  if isTemplatedRoute r.path then (parseRouteTemplate r.path).toOption else none

def conflictText (r1 r2 : Route) : String :=
  "route template conflict: `" ++ String.ofList r1.path ++ "` and `" ++ String.ofList r2.path ++
    "` can both match the same path (method " ++ r1.method ++ ")"

def checkAgainst (r : Route × List PathSegment) : List (Route × List PathSegment) → Except String Unit
  | [] => .ok ()
  | q :: parsed => if templatesOverlap r.2 q.2 then .error (conflictText r.1 q.1) else checkAgainst r parsed

def checkPairs : List (Route × List PathSegment) → Except String Unit
  | [] => .ok ()
  | r :: parsed => match checkAgainst r parsed with
    | .error e => .error e
    | .ok () => checkPairs parsed

def checkGroups (routes : List Route) : List String → Except String Unit
  | [] => .ok ()
  | method :: methods =>
    match checkPairs ((routes.filter (·.method = method)).filterMap fun r => (templateOf r).map fun t => (r, t)) with
    | .error e => .error e
    | .ok () => checkGroups routes methods

/-- The groups are in a hash map: `methods` are its keys in the order in which they are gone through.
mirrors metalogos-server/src/server.rs:305-345 -/
def checkRouteTemplateConflicts (methods : List String) (routes : List Route) : Except String Unit :=
  checkGroups routes methods

/-! ## Pairs of templates -/

/-- Two different literals. -/
def clash : PathSegment × PathSegment → Bool
  | (.literal a, .literal b) => decide (a ≠ b)
  | _ => false

/-- Segments of two kinds. -/
def misshapen : PathSegment × PathSegment → Bool
  | (.literal _, .literal _) => false
  | (.param _, .param _) => false
  | (.wildcard _, .wildcard _) => false
  | _ => true

def Clear (z : List (PathSegment × PathSegment)) : Prop := ∀ p ∈ z, clash p = false

/-- Segments of two kinds are met first, and two different literals stand behind them. -/
def Hasty (z : List (PathSegment × PathSegment)) : Prop :=
  ∃ a x rest, z = a ++ x :: rest ∧ Clear a ∧ misshapen x = true ∧ ∃ y ∈ rest, clash y = true

def endsInWildcard : List PathSegment → Bool
  | [] => false
  | [s] => s.isWildcard
  | _ :: t => endsInWildcard t

/-- A pair that is rightly refused. -/
def RightAlarm (t t' : List PathSegment) : Prop := t.length = t'.length ∧ Clear (t.zip t')

/-- A pair that is refused and shares no path. -/
def FalseAlarm (t t' : List PathSegment) : Prop := t.length = t'.length ∧ Hasty (t.zip t')

/-- The first template is the shorter one, and its wildcard takes the end of the other one. -/
def Absorbs (t t' : List PathSegment) : Prop :=
  t.length < t'.length ∧ endsInWildcard t = true ∧ Clear (t.zip t')

/-- A pair that shares a path and is not refused. -/
def Missed (t t' : List PathSegment) : Prop := Absorbs t t' ∨ Absorbs t' t

/-- A path that both match. -/
def Shared (t t' : List PathSegment) : Prop :=
  ∃ path, matchPathAgainstTemplate (pathSegments path) t = true ∧ matchPathAgainstTemplate (pathSegments path) t' = true

/-- Two templated routes of one method, one before the other, stand in the relation. -/
def Has (P : List PathSegment → List PathSegment → Prop) (routes : List Route) : Prop :=
  ∃ r r' t t', [r, r'].Sublist routes ∧ r.method = r'.method ∧ templateOf r = some t ∧ templateOf r' = some t' ∧ P t t'

/-- For every request the same, in whatever order the routes are declared. -/
def OrderFree (routes : List Route) : Prop :=
  ∀ routes', routes'.Perm routes → ∀ uriPath method,
    bindTemplatedRoute uriPath method routes' = bindTemplatedRoute uriPath method routes

section pairs

variable {s s' : PathSegment} {t t' : List PathSegment} {z : List (PathSegment × PathSegment)}

theorem sameLengthOverlap_cons : sameLengthOverlap (s :: t) (s' :: t') =
    if clash (s, s') then false else if misshapen (s, s') then true else sameLengthOverlap t t' := by
  cases s with
  | literal a =>
    cases s' with
    | literal b => by_cases hab : a = b <;> simp [sameLengthOverlap, clash, misshapen, hab]
    | param _ => rfl
    | wildcard _ => rfl
  | param _ => cases s' <;> rfl
  | wildcard _ => cases s' <;> rfl

theorem not_clash_of_misshapen {p : PathSegment × PathSegment} (h : misshapen p = true) : clash p = false := by
  obtain ⟨s, s'⟩ := p
  cases s <;> cases s' <;> first | rfl | cases h

theorem clear_cons {p : PathSegment × PathSegment} : Clear (p :: z) ↔ clash p = false ∧ Clear z := List.forall_mem_cons

theorem hasty_cons {p : PathSegment × PathSegment} (hshape : misshapen p = false) :
    Hasty (p :: z) ↔ clash p = false ∧ Hasty z := by
  constructor
  · rintro ⟨a, x, rest, heq, hclear, hx, hy⟩
    cases a with
    | nil =>
      obtain ⟨rfl, _⟩ := List.cons.inj heq
      rw [hshape] at hx
      cases hx
    | cons q a =>
      obtain ⟨rfl, rfl⟩ := List.cons.inj heq
      obtain ⟨hp, ha⟩ := clear_cons.1 hclear
      exact ⟨hp, a, x, rest, rfl, ha, hx, hy⟩
  · rintro ⟨hp, a, x, rest, rfl, ha, hx, hy⟩
    exact ⟨p :: a, x, rest, rfl, clear_cons.2 ⟨hp, ha⟩, hx, hy⟩

theorem sameLengthOverlap_iff (hlen : t.length = t'.length) :
    sameLengthOverlap t t' = true ↔ Clear (t.zip t') ∨ Hasty (t.zip t') := by
  induction t generalizing t' with
  | nil =>
    obtain rfl := List.length_eq_zero_iff.1 hlen.symm
    exact ⟨fun _ => .inl nofun, fun _ => rfl⟩
  | cons s t ih =>
    match t', hlen with
    | s' :: t', hlen =>
      have ih := ih (Nat.succ.inj hlen)
      rw [sameLengthOverlap_cons, List.zip_cons_cons]
      cases hshape : misshapen (s, s') with
      | true =>
        have hclash := not_clash_of_misshapen hshape
        rw [hclash, if_neg Bool.false_ne_true, if_pos rfl]
        refine ⟨fun _ => ?_, fun _ => rfl⟩
        by_cases hrest : Clear (t.zip t')
        · exact .inl (clear_cons.2 ⟨hclash, hrest⟩)
        · unfold Clear at hrest
          push Not at hrest
          obtain ⟨y, hy, hyc⟩ := hrest
          exact .inr ⟨[], (s, s'), _, rfl, nofun, hshape, y, hy, by simpa using hyc⟩
      | false =>
        rw [clear_cons, hasty_cons hshape]
        cases hclash : clash (s, s') with
        | true => simp
        | false => simp [ih]

theorem templatesOverlap_of_ne (hne : t.length ≠ t'.length) : templatesOverlap t t' = false := by
  unfold templatesOverlap
  rw [if_neg hne]
  dsimp only
  by_cases hgt : t.length > t'.length
  · rw [if_pos hgt]
    dsimp only
    split
    · rw [if_pos (by omega)]
    · rfl
  · rw [if_neg hgt]
    dsimp only
    split
    · rw [if_pos (by omega)]
    · rfl

theorem templatesOverlap_iff : templatesOverlap t t' = true ↔ RightAlarm t t' ∨ FalseAlarm t t' := by
  by_cases hlen : t.length = t'.length
  · rw [templatesOverlap, if_pos hlen, sameLengthOverlap_iff hlen]
    exact ⟨fun h => h.imp (And.intro hlen) (And.intro hlen), fun h => h.imp And.right And.right⟩
  · rw [templatesOverlap_of_ne hlen]
    exact ⟨nofun, fun h => absurd (h.elim And.left And.left) hlen⟩

end pairs

/-! ## Parsed templates -/

section parsed

variable {t t' : List PathSegment} {us : List (List Char)} {path seg : List Char}

/-- A wildcard stands at the end only, and no literal has a slash. -/
inductive Formed : List PathSegment → Prop
  | nil : Formed []
  | wildcard (name : List Char) : Formed [.wildcard name]
  | param (name : List Char) {t : List PathSegment} (ht : Formed t) : Formed (.param name :: t)
  | literal {s : List Char} (hs : '/' ∉ s) {t : List PathSegment} (ht : Formed t) : Formed (.literal s :: t)

def PathSegment.isLiteral : PathSegment → Bool
  | .literal _ => true
  | _ => false

theorem parse_literal {s : List Char} (h : parseSegment seg = .ok (.literal s)) : s = seg ∧ '\x7b' ∉ seg := by
  unfold parseSegment at h
  split_ifs at h with hbraces hbad
  · split at h
    · cases h
    · cases h
    · cases h
    · split_ifs at h
      cases h
  · cases h
    exact ⟨rfl, fun h => hbad (.inl h)⟩

theorem not_mem_splitOn {c : Char} (x : List Char) : ∀ l ∈ x.splitOn c, c ∉ l := by
  induction x with
  | nil => simp
  | cons d x ih =>
    rw [List.splitOn_cons_eq_if_modifyHead]
    split_ifs with hd
    · exact List.forall_mem_cons.2 ⟨List.not_mem_nil, ih⟩
    · cases hx : x.splitOn c with
      | nil => exact absurd hx (List.splitOn_ne_nil c x)
      | cons l ls =>
        rw [hx] at ih
        obtain ⟨hl, hls⟩ := List.forall_mem_cons.1 ih
        have hcd : ¬ c = d := fun h => hd (beq_iff_eq.2 h.symm)
        exact List.forall_mem_cons.2 ⟨fun h => (List.mem_cons.1 h).elim hcd hl, hls⟩

theorem pathSegments_free (path : List Char) : ∀ l ∈ pathSegments path, '/' ∉ l := by
  unfold pathSegments
  dsimp only
  generalize (if path.head? = some '/' then path.drop 1 else path) = stripped
  split_ifs
  · exact nofun
  · exact not_mem_splitOn stripped

theorem parseSegments_cons {segs : List (List Char)} (h : parseSegments false (seg :: segs) = .ok t) :
    ∃ s rest, parseSegment seg = .ok s ∧ parseSegments s.isWildcard segs = .ok rest ∧ t = s :: rest := by
  rw [parseSegments, if_neg Bool.false_ne_true] at h
  obtain ⟨s, hs, h⟩ := bind_ok.1 h
  obtain ⟨rest, hrest, h⟩ := bind_ok.1 h
  exact ⟨s, rest, hs, hrest, (Except.ok.inj h).symm⟩

theorem parseSegments_wildcard {segs : List (List Char)}
    (h : parseSegments true segs = .ok t) : segs = [] ∧ t = [] := by
  cases segs with
  | nil => exact ⟨rfl, (Except.ok.inj h).symm⟩
  | cons seg segs =>
    rw [parseSegments, if_pos rfl] at h
    cases h

theorem parseSegments_formed (segs : List (List Char)) (hfree : ∀ l ∈ segs, '/' ∉ l) :
    ∀ t, parseSegments false segs = .ok t → Formed t := by
  induction segs with
  | nil =>
    intro t h
    rw [← Except.ok.inj h]
    exact .nil
  | cons seg segs ih =>
    intro t h
    obtain ⟨hseg, hsegs⟩ := List.forall_mem_cons.1 hfree
    obtain ⟨s, rest, hs, hrest, rfl⟩ := parseSegments_cons h
    cases s with
    | literal a =>
      obtain ⟨rfl, _⟩ := parse_literal hs
      exact .literal hseg (ih hsegs rest hrest)
    | param name => exact .param name (ih hsegs rest hrest)
    | wildcard name =>
      obtain ⟨_, rfl⟩ := parseSegments_wildcard hrest
      exact .wildcard name

/-- A template of literals has no brace. -/
theorem parseSegments_literal (segs : List (List Char)) : ∀ t, parseSegments false segs = .ok t →
    (∀ s ∈ t, s.isLiteral = true) → ∀ l ∈ segs, '\x7b' ∉ l := by
  induction segs with
  | nil => exact fun _ _ _ => nofun
  | cons seg segs ih =>
    intro t h hall
    obtain ⟨s, rest, hs, hrest, rfl⟩ := parseSegments_cons h
    obtain ⟨hlit, hrestall⟩ := List.forall_mem_cons.1 hall
    cases s with
    | literal a => exact List.forall_mem_cons.2 ⟨(parse_literal hs).2, ih rest hrest hrestall⟩
    | param name => cases hlit
    | wildcard name => cases hlit

theorem mem_intercalate {c d : Char} {ls : List (List Char)} (h : c ∈ [d].intercalate ls) (hne : c ≠ d) :
    ∃ l ∈ ls, c ∈ l := by
  induction ls with
  | nil => cases h
  | cons l ls ih =>
    cases ls with
    | nil => exact ⟨l, List.mem_cons_self, by simpa using h⟩
    | cons m ls =>
      rw [List.intercalate_cons_cons, List.append_assoc, List.mem_append, List.singleton_append, List.mem_cons] at h
      rcases h with h | h | h
      · exact ⟨l, List.mem_cons_self, h⟩
      · exact absurd h hne
      · obtain ⟨l', hl', hc⟩ := ih h
        exact ⟨l', List.mem_cons_of_mem l hl', hc⟩

theorem brace_segment (h : '\x7b' ∈ path) : ∃ l ∈ pathSegments path, '\x7b' ∈ l := by
  have hstripped : '\x7b' ∈ (if path.head? = some '/' then path.drop 1 else path) := by
    split_ifs with hhead
    · match path, hhead, h with
      | c :: path, hhead, h =>
        obtain rfl := Option.some.inj hhead
        exact (List.mem_cons.1 h).resolve_left (by decide)
    · exact h
  unfold pathSegments
  dsimp only
  generalize (if path.head? = some '/' then path.drop 1 else path) = stripped at hstripped ⊢
  rw [if_neg (List.ne_nil_of_mem hstripped)]
  refine @mem_intercalate _ '/' _ ?_ (by decide)
  rw [List.intercalate_splitOn]
  exact hstripped

/-- The template of a templated route. -/
structure Templated (t : List PathSegment) : Prop where
  formed : Formed t
  bound : ∃ s ∈ t, s.isLiteral = false

theorem templated_of_route {r : Route} (h : templateOf r = some t) : Templated t := by
  unfold templateOf at h
  split_ifs at h with htempl
  cases hparse : parseRouteTemplate r.path with
  | error e =>
    rw [hparse] at h
    cases h
  | ok template =>
    rw [hparse] at h
    obtain rfl := Option.some.inj h
    refine ⟨parseSegments_formed _ (pathSegments_free r.path) _ hparse, ?_⟩
    by_contra hnone
    have hall : ∀ s ∈ template, s.isLiteral = true := fun s hs => by
      by_contra hs'
      exact hnone ⟨s, hs, Bool.eq_false_iff.2 hs'⟩
    obtain ⟨l, hl, hbrace⟩ := brace_segment (of_decide_eq_true htempl).1
    exact parseSegments_literal _ _ hparse hall l hl hbrace

/-! ## A path of both -/

theorem match_length (ht : Formed t) (h : matchPathAgainstTemplate us t = true) :
    t.length ≤ us.length ∧ (endsInWildcard t = false → us.length = t.length) := by
  induction ht generalizing us with
  | nil =>
    cases us with
    | nil => exact ⟨Nat.le_refl 0, fun _ => rfl⟩
    | cons u us => cases h
  | wildcard name =>
    cases us with
    | nil => cases h
    | cons u us => exact ⟨Nat.succ_le_succ (Nat.zero_le _), nofun⟩
  | param name ht ih =>
    rename_i t
    cases us with
    | nil => cases h
    | cons u us =>
      obtain ⟨hle, heq⟩ := ih h
      refine ⟨Nat.succ_le_succ hle, fun hend => congrArg Nat.succ (heq ?_)⟩
      cases t <;> first | rfl | exact hend
  | literal hs ht ih =>
    rename_i s t
    cases us with
    | nil => cases h
    | cons u us =>
      obtain ⟨hle, heq⟩ := ih (Bool.and_eq_true_iff.1 h).2
      refine ⟨Nat.succ_le_succ hle, fun hend => congrArg Nat.succ (heq ?_)⟩
      cases t <;> first | rfl | exact hend

theorem clear_nil_right (t : List PathSegment) : Clear (t.zip []) := by
  rw [List.zip_nil_right]
  exact nofun

/-- Templates that match one path have no two different literals at one position. -/
theorem clear_of_match (ht : Formed t) (ht' : Formed t') (h : matchPathAgainstTemplate us t = true)
    (h' : matchPathAgainstTemplate us t' = true) : Clear (t.zip t') := by
  induction ht generalizing us t' with
  | nil => exact nofun
  | wildcard name =>
    cases t' with
    | nil => exact nofun
    | cons s' t' => exact clear_cons.2 ⟨rfl, nofun⟩
  | param name ht ih =>
    cases us with
    | nil => cases h
    | cons u us =>
      cases ht' with
      | nil => exact nofun
      | wildcard name' => exact clear_cons.2 ⟨rfl, clear_nil_right _⟩
      | param name' ht' => exact clear_cons.2 ⟨rfl, ih ht' h h'⟩
      | literal hs' ht' => exact clear_cons.2 ⟨rfl, ih ht' h (Bool.and_eq_true_iff.1 h').2⟩
  | literal hs ht ih =>
    cases us with
    | nil => cases h
    | cons u us =>
      obtain ⟨hu, hrest⟩ := Bool.and_eq_true_iff.1 h
      cases ht' with
      | nil => exact nofun
      | wildcard name' => exact clear_cons.2 ⟨rfl, clear_nil_right _⟩
      | param name' ht' => exact clear_cons.2 ⟨rfl, ih ht' hrest h'⟩
      | literal hs' ht' =>
        obtain ⟨hu', hrest'⟩ := Bool.and_eq_true_iff.1 h'
        have hsame := (of_decide_eq_true hu).symm.trans (of_decide_eq_true hu')
        exact clear_cons.2 ⟨by simp [clash, hsame], ih ht' hrest hrest'⟩

/-- What a segment matches. -/
def fill : PathSegment → List Char
  | .literal s => s
  | _ => ['a']

/-- A path of a template and one that is no shorter. -/
def meet : List PathSegment → List PathSegment → List (List Char)
  | [], t' => t'.map fill
  | .literal a :: t, _ :: t' => a :: meet t t'
  | _ :: t, s' :: t' => fill s' :: meet t t'
  | _ :: _, [] => []

theorem match_fill (ht : Formed t) : matchPathAgainstTemplate (t.map fill) t = true := by
  induction ht with
  | nil => rfl
  | wildcard name => rfl
  | param name ht ih => exact ih
  | literal hs ht ih => exact Bool.and_eq_true_iff.2 ⟨decide_eq_true rfl, ih⟩

theorem match_meet_longer (ht' : Formed t') (hle : t.length ≤ t'.length) (hclear : Clear (t.zip t')) :
    matchPathAgainstTemplate (meet t t') t' = true := by
  induction ht' generalizing t with
  | nil =>
    obtain rfl := List.length_eq_zero_iff.1 (Nat.le_zero.1 hle)
    rfl
  | wildcard name =>
    cases t with
    | nil => rfl
    | cons s t => cases s <;> rfl
  | param name ht' ih =>
    cases t with
    | nil => exact match_fill (.param name ht')
    | cons s t =>
      have hrest := ih (Nat.le_of_succ_le_succ hle) (clear_cons.1 hclear).2
      cases s <;> exact hrest
  | literal hs' ht' ih =>
    cases t with
    | nil => exact match_fill (.literal hs' ht')
    | cons s t =>
      obtain ⟨hhead, hclear⟩ := clear_cons.1 hclear
      have hrest := ih (Nat.le_of_succ_le_succ hle) hclear
      cases s with
      | literal a => exact Bool.and_eq_true_iff.2 ⟨decide_eq_true (by simpa [clash] using hhead), hrest⟩
      | param _ => exact Bool.and_eq_true_iff.2 ⟨decide_eq_true rfl, hrest⟩
      | wildcard _ => exact Bool.and_eq_true_iff.2 ⟨decide_eq_true rfl, hrest⟩

theorem match_meet_shorter (ht : Formed t) (hle : t.length ≤ t'.length)
    (hend : t.length = t'.length ∨ endsInWildcard t = true) : matchPathAgainstTemplate (meet t t') t = true := by
  have hdown : ∀ {s s' : PathSegment} {t t' : List PathSegment}, (s :: t).length = (s' :: t').length ∨
      endsInWildcard (s :: t) = true → s.isWildcard = false → t.length = t'.length ∨ endsInWildcard t = true := by
    intro s s' t t' hend hs
    refine hend.imp Nat.succ.inj fun hwild => ?_
    cases t with
    | nil => exact absurd hwild (by simp [endsInWildcard, hs])
    | cons s'' t => exact hwild
  induction ht generalizing t' with
  | nil =>
    obtain rfl := List.length_eq_zero_iff.1 (hend.resolve_right nofun).symm
    rfl
  | wildcard name =>
    match t', hle with
    | s' :: t', _ => rfl
  | param name ht ih =>
    match t', hle, hend with
    | s' :: t', hle, hend => exact ih (Nat.le_of_succ_le_succ hle) (hdown hend rfl)
  | literal hs ht ih =>
    match t', hle, hend with
    | s' :: t', hle, hend =>
      exact Bool.and_eq_true_iff.2 ⟨decide_eq_true rfl, ih (Nat.le_of_succ_le_succ hle) (hdown hend rfl)⟩

theorem fill_free (ht : Formed t) : ∀ l ∈ t.map fill, '/' ∉ l := by
  induction ht with
  | nil => exact nofun
  | wildcard name => simp [fill]
  | param name ht ih => exact List.forall_mem_cons.2 ⟨by simp [fill], ih⟩
  | literal hs ht ih => exact List.forall_mem_cons.2 ⟨hs, ih⟩

theorem mem_meet {l : List Char} (h : l ∈ meet t t') : l ∈ t.map fill ∨ l ∈ t'.map fill := by
  induction t generalizing t' with
  | nil => exact .inr h
  | cons s t ih =>
    cases t' with
    | nil => cases s <;> cases h
    | cons s' t' =>
      have hrest : l ∈ meet t t' → l ∈ (s :: t).map fill ∨ l ∈ (s' :: t').map fill := fun h =>
        (ih h).imp (List.mem_cons_of_mem _) (List.mem_cons_of_mem _)
      cases s with
      | literal a => exact (List.mem_cons.1 h).elim (fun h => .inl (h ▸ List.mem_cons_self)) hrest
      | param _ => exact (List.mem_cons.1 h).elim (fun h => .inr (h ▸ List.mem_cons_self)) hrest
      | wildcard _ => exact (List.mem_cons.1 h).elim (fun h => .inr (h ▸ List.mem_cons_self)) hrest

theorem meet_free (ht : Formed t) (ht' : Formed t') : ∀ l ∈ meet t t', '/' ∉ l :=
  fun l hl => (mem_meet hl).elim (fill_free ht l) (fill_free ht' l)

/-- Segments that are those of a path. -/
theorem pathSegments_join (hne : us ≠ []) (hsingle : us ≠ [[]]) (hfree : ∀ l ∈ us, '/' ∉ l) :
    pathSegments ('/' :: ['/'].intercalate us) = us := by
  have hsplit := List.splitOn_intercalate '/' hfree hne
  have hjoin : ['/'].intercalate us ≠ [] := fun h => hsingle (by rw [← hsplit, h]; rfl)
  simp [pathSegments, hjoin, hsplit]

theorem meet_open {s s' : PathSegment} (hs : s.isLiteral = false) :
    meet (s :: t) (s' :: t') = fill s' :: meet t t' := by
  cases s with
  | literal a => cases hs
  | param _ => rfl
  | wildcard _ => rfl

theorem meet_pair {x x' y y' : PathSegment} (b : List Char) : meet (x :: y :: t) (x' :: y' :: t') ≠ [b] := by
  cases x <;> cases y <;> exact nofun

theorem meet_ne (ht : Templated t) (ht' : Templated t') (hle : t.length ≤ t'.length) :
    meet t t' ≠ [] ∧ meet t t' ≠ [[]] := by
  obtain ⟨s, hs, hslit⟩ := ht.bound
  obtain ⟨s', hs', hslit'⟩ := ht'.bound
  match t, t', hs, hs', hle with
  | x :: y :: t, x' :: y' :: t', _, _, _ => exact ⟨by cases x <;> exact List.cons_ne_nil _ _, meet_pair []⟩
  | [x], x' :: t', hs, hs', _ =>
    rw [← List.mem_singleton.1 hs, meet_open hslit]
    refine ⟨List.cons_ne_nil _ _, fun h => ?_⟩
    obtain ⟨hhead, hrest⟩ := List.cons.inj h
    -- nothing behind the first segment: it is the one that is no literal
    obtain rfl : t' = [] := List.map_eq_nil_iff.1 hrest
    rw [← List.mem_singleton.1 hs'] at hhead
    cases s' with
    | literal b => cases hslit'
    | param _ => cases hhead
    | wildcard _ => cases hhead

theorem shared_of_clear (ht : Templated t) (ht' : Templated t') (hle : t.length ≤ t'.length)
    (hend : t.length = t'.length ∨ endsInWildcard t = true) (hclear : Clear (t.zip t')) : Shared t t' := by
  obtain ⟨hne, hsingle⟩ := meet_ne ht ht' hle
  refine ⟨'/' :: ['/'].intercalate (meet t t'), ?_⟩
  rw [pathSegments_join hne hsingle (meet_free ht.formed ht'.formed)]
  exact ⟨match_meet_shorter ht.formed hle hend, match_meet_longer ht'.formed hle hclear⟩

theorem Shared.symm (h : Shared t t') : Shared t' t := by
  obtain ⟨path, hpath, hpath'⟩ := h
  exact ⟨path, hpath', hpath⟩

theorem shared_iff (ht : Templated t) (ht' : Templated t') : Shared t t' ↔ RightAlarm t t' ∨ Missed t t' := by
  have hshort : ∀ {t t'}, Templated t → Templated t' → Shared t t' → t.length < t'.length → Absorbs t t' := by
    rintro t t' ht ht' ⟨path, hpath, hpath'⟩ hlt
    obtain ⟨_, heq⟩ := match_length ht.formed hpath
    obtain ⟨hle', _⟩ := match_length ht'.formed hpath'
    refine ⟨hlt, ?_, clear_of_match ht.formed ht'.formed hpath hpath'⟩
    by_contra hend
    have hexact := heq (Bool.eq_false_iff.2 hend)
    omega
  constructor
  · intro h
    rcases Nat.lt_trichotomy t.length t'.length with hlt | heq | hgt
    · exact .inr (.inl (hshort ht ht' h hlt))
    · obtain ⟨path, hpath, hpath'⟩ := h
      exact .inl ⟨heq, clear_of_match ht.formed ht'.formed hpath hpath'⟩
    · exact .inr (.inr (hshort ht' ht h.symm hgt))
  · rintro (⟨heq, hclear⟩ | ⟨hlt, hend, hclear⟩ | ⟨hlt, hend, hclear⟩)
    · exact shared_of_clear ht ht' (Nat.le_of_eq heq) (.inl heq) hclear
    · exact shared_of_clear ht ht' (Nat.le_of_lt hlt) (.inr hend) hclear
    · exact (shared_of_clear ht' ht (Nat.le_of_lt hlt) (.inr hend) hclear).symm

end parsed

/-! ## Lists of routes -/

section lists

variable {routes : List Route} {methods : List String} {P Q : List PathSegment → List PathSegment → Prop}

theorem has_or : Has (fun t t' => P t t' ∨ Q t t') routes ↔ Has P routes ∨ Has Q routes := by
  constructor
  · rintro ⟨r, r', t, t', hsub, hm, ht, ht', h | h⟩
    · exact .inl ⟨r, r', t, t', hsub, hm, ht, ht', h⟩
    · exact .inr ⟨r, r', t, t', hsub, hm, ht, ht', h⟩
  · rintro (⟨r, r', t, t', hsub, hm, ht, ht', h⟩ | ⟨r, r', t, t', hsub, hm, ht, ht', h⟩)
    · exact ⟨r, r', t, t', hsub, hm, ht, ht', .inl h⟩
    · exact ⟨r, r', t, t', hsub, hm, ht, ht', .inr h⟩

theorem has_congr (h : ∀ t t', Templated t → Templated t' → (P t t' ↔ Q t t')) : Has P routes ↔ Has Q routes :=
  ⟨fun ⟨r, r', t, t', hsub, hm, ht, ht', hp⟩ =>
      ⟨r, r', t, t', hsub, hm, ht, ht', (h t t' (templated_of_route ht) (templated_of_route ht')).1 hp⟩,
    fun ⟨r, r', t, t', hsub, hm, ht, ht', hq⟩ =>
      ⟨r, r', t, t', hsub, hm, ht, ht', (h t t' (templated_of_route ht) (templated_of_route ht')).2 hq⟩⟩

theorem checkAgainst_ok {r : Route × List PathSegment} {parsed : List (Route × List PathSegment)} :
    checkAgainst r parsed = .ok () ↔ ∀ q ∈ parsed, ¬ templatesOverlap r.2 q.2 = true := by
  induction parsed with
  | nil => exact ⟨fun _ => nofun, fun _ => rfl⟩
  | cons q parsed ih =>
    rw [checkAgainst, List.forall_mem_cons, ← ih]
    by_cases h : templatesOverlap r.2 q.2 = true
    · rw [if_pos h]
      exact ⟨nofun, fun hno => absurd h hno.1⟩
    · rw [if_neg h]
      exact ⟨fun hok => ⟨h, hok⟩, And.right⟩

theorem checkPairs_ok {parsed : List (Route × List PathSegment)} :
    checkPairs parsed = .ok () ↔ parsed.Pairwise fun p q => ¬ templatesOverlap p.2 q.2 = true := by
  induction parsed with
  | nil => exact ⟨fun _ => .nil, fun _ => rfl⟩
  | cons r parsed ih =>
    rw [checkPairs, List.pairwise_cons, ← ih, ← checkAgainst_ok]
    cases checkAgainst r parsed with
    | error e => exact ⟨nofun, fun h => nomatch h.1⟩
    | ok _ => exact ⟨fun h => ⟨rfl, h⟩, And.right⟩

theorem checkGroups_ok : checkGroups routes methods = .ok () ↔ ∀ m ∈ methods,
    checkPairs ((routes.filter (·.method = m)).filterMap fun r => (templateOf r).map fun t => (r, t)) = .ok () := by
  induction methods with
  | nil => exact ⟨fun _ => nofun, fun _ => rfl⟩
  | cons m methods ih =>
    rw [checkGroups, List.forall_mem_cons, ← ih]
    cases checkPairs ((routes.filter (·.method = m)).filterMap fun r => (templateOf r).map fun t => (r, t)) with
    | error e => exact ⟨nofun, fun h => nomatch h.1⟩
    | ok _ => exact ⟨fun h => ⟨rfl, h⟩, And.right⟩

theorem check_ok (hmethods : ∀ m, m ∈ methods ↔ m ∈ routes.map Route.method) :
    checkRouteTemplateConflicts methods routes = .ok () ↔
      ¬ Has (fun t t' => templatesOverlap t t' = true) routes := by
  rw [checkRouteTemplateConflicts, checkGroups_ok]
  simp only [checkPairs_ok, List.pairwise_filterMap, List.pairwise_filter, decide_eq_true_eq, Option.map_eq_some_iff]
  constructor
  · rintro h ⟨r, r', t, t', hsub, hm, ht, ht', hover⟩
    have hmem : r'.method ∈ methods :=
      (hmethods _).2 (List.mem_map_of_mem (hsub.subset (List.mem_cons_of_mem r List.mem_cons_self)))
    have hpair := List.pairwise_iff_forall_sublist.1 (h _ hmem) hsub
    exact hpair hm rfl (r, t) ⟨t, ht, rfl⟩ (r', t') ⟨t', ht', rfl⟩ hover
  · intro h m _
    refine List.pairwise_iff_forall_sublist.2 fun {r r'} hsub hm hm' => ?_
    rintro _ ⟨t, ht, rfl⟩ _ ⟨t', ht', rfl⟩ hover
    exact h ⟨r, r', t, t', hsub, hm.trans hm'.symm, ht, ht', hover⟩

/-! ## The order of the routes -/

theorem bind_some {us : List (List Char)} {t : List PathSegment} {params params' : Params}
    (h : bindPathAgainstTemplate us t params = some params') : matchPathAgainstTemplate us t = true := by
  induction t generalizing us params with
  | nil =>
    cases us with
    | nil => rfl
    | cons u us => cases h
  | cons s t ih =>
    cases us with
    | nil => cases s <;> cases h
    | cons u us =>
      cases s with
      | literal a =>
        rw [bindPathAgainstTemplate] at h
        split_ifs at h with hu
        exact Bool.and_eq_true_iff.2 ⟨decide_eq_true hu, ih h⟩
      | param name => exact ih h
      | wildcard name => rfl

/-- What a route answers a request with. -/
def answer (uriPath : List Char) (method : String) (r : Route) : Option (Route × Params) :=
  if r.method = method then
    (templateOf r).bind fun t => (bindPathAgainstTemplate (pathSegments uriPath) t .empty).map fun params => (r, params)
  else none

/-- All templates parse. -/
def AllParse (routes : List Route) : Prop :=
  ∀ r ∈ routes, isTemplatedRoute r.path = true → ∃ t, parseRouteTemplate r.path = .ok t

theorem bindTemplatedRoute_eq (h : AllParse routes) (uriPath : List Char) (method : String) :
    bindTemplatedRoute uriPath method routes = .ok (routes.findSome? (answer uriPath method)) := by
  induction routes with
  | nil => rfl
  | cons r routes ih =>
    have ih := ih fun q hq => h q (List.mem_cons_of_mem r hq)
    rw [bindTemplatedRoute, List.findSome?_cons]
    by_cases hm : r.method = method
    · rw [if_neg (not_not.2 hm)]
      cases htempl : isTemplatedRoute r.path with
      | false =>
        have hnone : answer uriPath method r = none := by
          rw [answer, if_pos hm, templateOf, htempl]
          rfl
        rw [if_pos rfl, ih, hnone]
      | true =>
        obtain ⟨t, ht⟩ := h r List.mem_cons_self htempl
        have hanswer : answer uriPath method r =
            (bindPathAgainstTemplate (pathSegments uriPath) t .empty).map fun params => (r, params) := by
          rw [answer, if_pos hm, templateOf, htempl, if_pos rfl, ht]
          rfl
        rw [if_neg (Bool.noConfusion : ¬ true = false), ht, hanswer]
        dsimp only
        cases bindPathAgainstTemplate (pathSegments uriPath) t .empty with
        | none => exact ih
        | some params => rfl
    · have hnone : answer uriPath method r = none := if_neg hm
      rw [if_pos hm, ih, hnone]

theorem answer_some {uriPath : List Char} {method : String} {r : Route} {a : Route × Params}
    (h : answer uriPath method r = some a) : r.method = method ∧ ∃ t, templateOf r = some t ∧
      matchPathAgainstTemplate (pathSegments uriPath) t = true := by
  unfold answer at h
  split_ifs at h with hm
  obtain ⟨t, ht, h⟩ := Option.bind_eq_some_iff.1 h
  obtain ⟨params, hparams, _⟩ := Option.map_eq_some_iff.1 h
  exact ⟨hm, t, ht, bind_some hparams⟩

/-- Where no path is shared one route at most answers. -/
theorem orderFree_of_not_shared (hparse : AllParse routes) (h : ¬ Has Shared routes) : OrderFree routes := by
  intro routes' hperm uriPath method
  have hparse' : AllParse routes' := fun r hr => hparse r (hperm.subset hr)
  rw [bindTemplatedRoute_eq hparse, bindTemplatedRoute_eq hparse', ← List.head?_filterMap, ← List.head?_filterMap]
  have hone : (routes.filterMap (answer uriPath method)).Pairwise fun _ _ => False := by
    rw [List.pairwise_filterMap]
    refine List.pairwise_iff_forall_sublist.2 fun {r r'} hsub a ha a' ha' => ?_
    obtain ⟨hm, t, ht, hmatch⟩ := answer_some ha
    obtain ⟨hm', t', ht', hmatch'⟩ := answer_some ha'
    exact h ⟨r, r', t, t', hsub, hm.trans hm'.symm, ht, ht', uriPath, hmatch, hmatch'⟩
  have hanswers := hperm.filterMap (answer uriPath method)
  match hlist : routes.filterMap (answer uriPath method), hone with
  | [], _ =>
    rw [hlist] at hanswers
    rw [hanswers.eq_nil]
  | [a], _ =>
    rw [hlist] at hanswers
    rw [List.perm_singleton.1 hanswers]
  | a :: b :: rest, hone => exact ((List.pairwise_cons.1 hone).1 b List.mem_cons_self).elim

end lists

/-- Of a reason for both and one for each, both hold or neither does. -/
theorem either_way {a b c : Prop} : (¬ (a ∨ b) ↔ ¬ (a ∨ c)) ↔ (a ∨ ¬ b ∧ ¬ c ∨ b ∧ c) := by tauto

/-- On routes whose templates parse the check at the start succeeds exactly where no path is shared, and then no order
of the routes shows, where a pair is rightly refused, or no pair is missed or refused by mistake, or both are. -/
theorem route_conflicts_iff {routes : List Route} {methods : List String}
    (hmethods : ∀ m, m ∈ methods ↔ m ∈ routes.map Route.method) (hparse : AllParse routes) :
    ((checkRouteTemplateConflicts methods routes = .ok () ↔ ¬ Has Shared routes) ∧
      (checkRouteTemplateConflicts methods routes = .ok () → OrderFree routes)) ↔
    (Has RightAlarm routes ∨ ¬ Has FalseAlarm routes ∧ ¬ Has Missed routes ∨
      Has FalseAlarm routes ∧ Has Missed routes) := by
  have hcheck : checkRouteTemplateConflicts methods routes = .ok () ↔
      ¬ (Has RightAlarm routes ∨ Has FalseAlarm routes) := by
    rw [check_ok hmethods, ← has_or]
    exact not_congr (has_congr fun t t' _ _ => templatesOverlap_iff)
  have hshared : Has Shared routes ↔ Has RightAlarm routes ∨ Has Missed routes := by
    rw [← has_or]
    exact has_congr fun t t' ht ht' => shared_iff ht ht'
  have hexact : (checkRouteTemplateConflicts methods routes = .ok () ↔ ¬ Has Shared routes) ↔
      (Has RightAlarm routes ∨ ¬ Has FalseAlarm routes ∧ ¬ Has Missed routes ∨
        Has FalseAlarm routes ∧ Has Missed routes) := by
    rw [hcheck, hshared]
    exact either_way
  refine ⟨fun h => hexact.1 h.1, fun hcond => ?_⟩
  exact ⟨hexact.2 hcond, fun hok => orderFree_of_not_shared hparse ((hexact.2 hcond).1 hok)⟩

/-! ## A path of two routes -/

namespace Absorbed

def tail : Route := ⟨"/a/\x7b*rest\x7d".toList, "GET", []⟩

def item : Route := ⟨"/a/b/\x7bx\x7d".toList, "GET", []⟩

def routes : List Route := [tail, item]

theorem methods (m : String) : m ∈ ["GET"] ↔ m ∈ ["GET", "GET"] := by
  simp only [List.mem_cons, List.not_mem_nil, or_false, or_self]

theorem tail_parses : parseRouteTemplate tail.path = .ok [.literal "a".toList, .wildcard "rest".toList] := by
  decide +kernel

theorem item_parses :
    parseRouteTemplate item.path = .ok [.literal "a".toList, .literal "b".toList, .param "x".toList] := by
  decide +kernel

end Absorbed

theorem route_conflicts_two : ((checkRouteTemplateConflicts ["GET"] [Absorbed.tail, Absorbed.tail] = .ok () ↔
      ¬ Has Shared [Absorbed.tail, Absorbed.tail]) ∧
    (checkRouteTemplateConflicts ["GET"] [Absorbed.tail, Absorbed.tail] = .ok () →
      OrderFree [Absorbed.tail, Absorbed.tail])) ↔
    (Has RightAlarm [Absorbed.tail, Absorbed.tail] ∨
      ¬ Has FalseAlarm [Absorbed.tail, Absorbed.tail] ∧ ¬ Has Missed [Absorbed.tail, Absorbed.tail] ∨
      Has FalseAlarm [Absorbed.tail, Absorbed.tail] ∧ Has Missed [Absorbed.tail, Absorbed.tail]) :=
  route_conflicts_iff Absorbed.methods fun r hr _ => by
    rcases List.mem_cons.1 hr with rfl | hr
    · exact ⟨_, Absorbed.tail_parses⟩
    · rw [List.mem_singleton.1 hr]
      exact ⟨_, Absorbed.tail_parses⟩

/-- Both routes match `/a/b/c`, and the check succeeds. -/
theorem route_conflicts_wrong :
    ¬ (∀ routes : List Route, AllParse routes → ∀ methods, (∀ m, m ∈ methods ↔ m ∈ routes.map Route.method) →
      (checkRouteTemplateConflicts methods routes = .ok () ↔ ¬ Has Shared routes)) := by
  intro h
  have hparse : AllParse Absorbed.routes := fun r hr _ => by
    rcases List.mem_cons.1 hr with rfl | hr
    · exact ⟨_, Absorbed.tail_parses⟩
    · rw [List.mem_singleton.1 hr]
      exact ⟨_, Absorbed.item_parses⟩
  have hok : checkRouteTemplateConflicts ["GET"] Absorbed.routes = .ok () := by decide +kernel
  refine (h _ hparse ["GET"] Absorbed.methods).1 hok ?_
  exact ⟨Absorbed.tail, Absorbed.item, [.literal "a".toList, .wildcard "rest".toList],
    [.literal "a".toList, .literal "b".toList, .param "x".toList], List.Sublist.refl _, rfl, by decide +kernel,
    by decide +kernel, "/a/b/c".toList, by decide +kernel, by decide +kernel⟩

end Metalogos.Server
