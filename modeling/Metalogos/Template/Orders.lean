import Mathlib.Data.List.Nodup
import Metalogos.Template.Escapes

/-!
# The order of the parameters

The replaces of `render_template_body` run on the text the ones before have left, in the order a hash map is
iterated in. `render_order_free`: two orders give one text when in both every replace finds its spelling in
the body's own placeholders of its parameter only, or in what the same turn has put there. A value that has a
placeholder of another parameter is filled in one order and not in the other (`order_shows`).
-/
namespace Metalogos.Template

open Metalogos.Lib
open Metalogos.Lang (FloatModel Value)
open Metalogos.Parser (Text)

/-- A map of parameters, in one of its orders. -/
structure VarMap where
  pairs : List (Name × Text)
  distinct : (pairs.map (·.1)).Nodup

/-- An order the map may be iterated in. -/
def VarMap.Iterates (vars : VarMap) (order : List (Name × Text)) : Prop := order.Perm vars.pairs

/-- The spellings a turn looks for, in its order. -/
def spellings (safe : List Name) (key : Name) : List Text :=
  rawSpellings key ++ (if key ∈ safe then safeSpellings key else []) ++ plainSpellings key

/-- The body cut at its placeholders. -/
def bodyPieces (safe keys : List Name) (body : Text) : List (Piece Name Char) :=
  cut (keys.flatMap fun key => (spellings safe key).map (key, ·)) body

/-- The replaces of one turn. -/
def turn (safe : List Name) (kv : Name × Text) : List (Text × Text) := replaces id escapeHtmlChars safe kv.1 kv.2

/-- Each replace of each turn finds its spelling in the pieces of its parameter only. -/
def OwnPlaces (safe : List Name) : List (Name × Text) → List (Piece Name Char) → Prop
  | [], _ => True
  | kv :: order, ps => EachInside id kv.1 (turn safe kv) ps ∧
      OwnPlaces safe order (own kv.1 (replaceEach id (turn safe kv)) ps)

instance decidableOwnPlaces (safe : List Name) : ∀ (order : List (Name × Text)) (ps : List (Piece Name Char)),
    Decidable (OwnPlaces safe order ps)
  | [], _ => .isTrue trivial
  | kv :: order, ps =>
    have := decidableOwnPlaces safe order (own kv.1 (replaceEach id (turn safe kv)) ps)
    inferInstanceAs (Decidable (EachInside id kv.1 (turn safe kv) ps ∧
      OwnPlaces safe order (own kv.1 (replaceEach id (turn safe kv)) ps)))

/-- Each placeholder filled by itself. -/
def fill (safe : List Name) (order : List (Name × Text)) (ps : List (Piece Name Char)) : List (Piece Name Char) :=
  order.foldl (fun ps kv => own kv.1 (replaceEach id (turn safe kv)) ps) ps

variable {safe : List Name} {order : List (Name × Text)}

theorem render_eq_fill {ps : List (Piece Name Char)} (h : OwnPlaces safe order ps) :
    renderTemplateBody (flatten ps) order safe = flatten (fill safe order ps) := by
  induction order generalizing ps with
  | nil => rfl
  | cons kv order ih =>
    have hpattern : ∀ r ∈ turn safe kv, r.1 ≠ [] := pattern_ne_nil
    have hturn := replaceEach_pieces hpattern h.1
    show renderTemplateBody (replaceEach id (turn safe kv) (flatten ps)) order safe = _
    rw [hturn, ih h.2]
    rfl

theorem fill_perm {vars : VarMap} {order' : List (Name × Text)} (h : vars.Iterates order) (h' : vars.Iterates order')
    (ps : List (Piece Name Char)) : fill safe order ps = fill safe order' ps := by
  have hdistinct : (order.map (·.1)).Nodup := (h.map (·.1)).nodup_iff.2 vars.distinct
  refine (h.trans h'.symm).foldl_eq' (fun x hx y hy ps => ?_) ps
  by_cases hxy : x.1 = y.1
  · obtain rfl := List.inj_on_of_nodup_map hdistinct hx hy hxy
    rfl
  · exact own_comm (Ne.symm hxy) _ _ _

theorem flatten_bodyPieces (safe keys : List Name) (body : Text) : flatten (bodyPieces safe keys body) = body := by
  refine flatten_cut (fun w hw => ?_) body
  obtain ⟨key, -, hw⟩ := List.mem_flatMap.1 hw
  obtain ⟨t, ht, rfl⟩ := List.mem_map.1 hw
  refine spelling_ne_nil (k := key) ?_
  simp only [spellings, List.mem_append] at ht ⊢
  rcases ht with (ht | ht) | ht
  · exact .inl (.inl ht)
  · split_ifs at ht
    · exact .inl (.inr ht)
    · cases ht
  · exact .inr ht

theorem render_body_eq_fill {keys : List Name} {body : Text} (h : OwnPlaces safe order (bodyPieces safe keys body)) :
    renderTemplateBody body order safe = flatten (fill safe order (bodyPieces safe keys body)) := by
  have hfill := render_eq_fill h
  rwa [flatten_bodyPieces] at hfill

/-- Where the arguments bind, the order is one of the map and its replaces stay in their own placeholders. -/
def Fills {F : Type} [FloatModel F] (reg : Registry) (iter : Dict Name Text → List (Name × Text))
    (template : String) (values : List (Value F)) : Prop :=
  ∀ entry vars, reg.get template.toList = some entry → argVars template entry values = .ok vars →
    (iter vars).Perm vars.pairs ∧
      OwnPlaces entry.safeParams (iter vars) (bodyPieces entry.safeParams vars.keys entry.body)

/-- A call gives one answer, a page or an error, for two orders. -/
theorem builtinRender_congr {F : Type} [FloatModel F] {reg : Registry}
    {iter iter' : Dict Name Text → List (Name × Text)} {template : String} {values : List (Value F)}
    (h : Fills reg iter template values) (h' : Fills reg iter' template values) :
    builtinRender reg iter (.string template :: values) = builtinRender reg iter' (.string template :: values) := by
  simp only [builtinRender]
  cases hentry : reg.get template.toList with
  | none => rfl
  | some entry =>
    cases hvars : argVars template entry values with
    | error e => simp [hvars, bind, Except.bind]
    | ok vars =>
      obtain ⟨hperm, hown⟩ := h entry vars hentry hvars
      obtain ⟨hperm', hown'⟩ := h' entry vars hentry hvars
      let map : VarMap := ⟨vars.pairs, argVars_nodup hvars⟩
      have hiter : map.Iterates (iter vars) := hperm
      have hiter' : map.Iterates (iter' vars) := hperm'
      simp only [hvars, bind, Except.bind]
      rw [render_body_eq_fill hown, render_body_eq_fill hown', fill_perm hiter hiter']

/-- Two orders whose replaces stay in the body's own placeholders give one text. -/
theorem render_order_free {vars : VarMap} {safe : List Name} {body : Text} {o₁ o₂ : List (Name × Text)}
    (h₁ : vars.Iterates o₁) (h₂ : vars.Iterates o₂)
    (c₁ : OwnPlaces safe o₁ (bodyPieces safe (vars.pairs.map (·.1)) body))
    (c₂ : OwnPlaces safe o₂ (bodyPieces safe (vars.pairs.map (·.1)) body)) :
    renderTemplateBody body o₁ safe = renderTemplateBody body o₂ safe := by
  rw [render_body_eq_fill c₁, render_body_eq_fill c₂, fill_perm h₁ h₂]

/-! ### Two values, and a value with a placeholder -/

/-- `<b>{{ a }}</b>{{b}}` -/
def pairBody : Text := "<b>{{ a }}</b>{{b}}".toList

def pairVars : VarMap := ⟨[(nameA, ['x']), (nameB, ['&'])], by decide⟩

theorem render_order_free_pair :
    renderTemplateBody pairBody pairVars.pairs [] = renderTemplateBody pairBody pairVars.pairs.reverse [] :=
  render_order_free (show pairVars.Iterates pairVars.pairs from .refl _) (List.reverse_perm _) (by decide)
    (by decide)

/-- The value of `a` is an escaped placeholder of `b`. -/
def nestedVars : VarMap := ⟨[(nameA, "{{ b }}".toList), (nameB, ['x'])], by decide⟩

theorem order_shows : nestedVars.Iterates nestedVars.pairs ∧ nestedVars.Iterates nestedVars.pairs.reverse ∧
    renderTemplateBody cardBody nestedVars.pairs [] = ['x'] ∧
    renderTemplateBody cardBody nestedVars.pairs.reverse [] = "{{ b }}".toList ∧
    renderTemplateBody cardBody nestedVars.pairs [] ≠ renderTemplateBody cardBody nestedVars.pairs.reverse [] :=
  ⟨.refl _, List.reverse_perm _, by decide, by decide, by decide⟩

end Metalogos.Template
