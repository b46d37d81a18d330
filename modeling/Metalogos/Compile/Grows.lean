import Metalogos.Compile.Body
import Metalogos.Lib.Fallible

/-!
# What compiling does to the name tables

`Grows lets shares cs cs'`: compiling a piece of text that binds the names `lets` took the
compile-time state from `cs` to `cs'`. Slots are only ever added (`next`, `new`), names the text
does not bind keep theirs (`old`), and no two names share one (`ok`). Outside an arm every name keeps
its slot (`kept`), unless an `each x, x` restored its one name to the item's slot (`shares`).
-/
namespace Metalogos.Compile

open Metalogos.Lang Metalogos.Machine Metalogos.Lib

variable {F : Type}

/-! ## Names a block binds -/

mutual
/-- Names a statement leaves bound to a slot of its own: its `let`s, nested blocks included (arms of
block expressions are not: their names end with them), and the one name of an `each x, x`. -/
def letsStmt : Stmt F → List String
  | .letBinding x _ _ => [x]
  | .each _ _ body => letsStmts body
  | .eachWithIndex i x _ body => (if i = x then [x] else []) ++ letsStmts body
  | .while_ _ body => letsStmts body
  | .ifElseBlock _ body rest => letsStmts body ++ letsElse rest
  | .ifThen _ body => letsStmts body
  | .match_ _ arms => letsArms arms
  | _ => []

def letsStmts : List (Stmt F) → List String
  | [] => []
  | s :: rest => letsStmt s ++ letsStmts rest

def letsElse : ElseChain F → List String
  | .none => []
  | .else_ body => letsStmts body
  | .elseIf _ body rest => letsStmts body ++ letsElse rest

def letsArms : MatchArms F → List String
  | .none => []
  | .else_ body => letsStmts body
  | .lit _ body rest => letsStmts body ++ letsArms rest
  | .compare _ _ body rest => letsStmts body ++ letsArms rest
end

mutual
/-- Names bound by the `each` loops of a statement. -/
def loopVarsStmt : Stmt F → List String
  | .each x _ body => x :: loopVarsStmts body
  | .eachWithIndex i x _ body => i :: x :: loopVarsStmts body
  | .while_ _ body => loopVarsStmts body
  | .ifElseBlock _ body rest => loopVarsStmts body ++ loopVarsElse rest
  | .ifThen _ body => loopVarsStmts body
  | .match_ _ arms => loopVarsArms arms
  | _ => []

def loopVarsStmts : List (Stmt F) → List String
  | [] => []
  | s :: rest => loopVarsStmt s ++ loopVarsStmts rest

def loopVarsElse : ElseChain F → List String
  | .none => []
  | .else_ body => loopVarsStmts body
  | .elseIf _ body rest => loopVarsStmts body ++ loopVarsElse rest

def loopVarsArms : MatchArms F → List String
  | .none => []
  | .else_ body => loopVarsStmts body
  | .lit _ body rest => loopVarsStmts body ++ loopVarsArms rest
  | .compare _ _ body rest => loopVarsStmts body ++ loopVarsArms rest
end

mutual
/-- Some `each` uses one name for its index and its item. -/
def sharesStmt : Stmt F → Bool
  | .each _ _ body => sharesStmts body
  | .eachWithIndex i x _ body => decide (i = x) || sharesStmts body
  | .while_ _ body => sharesStmts body
  | .ifElseBlock _ body rest => sharesStmts body || sharesElse rest
  | .ifThen _ body => sharesStmts body
  | .match_ _ arms => sharesArms arms
  | _ => false

def sharesStmts : List (Stmt F) → Bool
  | [] => false
  | s :: rest => sharesStmt s || sharesStmts rest

def sharesElse : ElseChain F → Bool
  | .none => false
  | .else_ body => sharesStmts body
  | .elseIf _ body rest => sharesStmts body || sharesElse rest

def sharesArms : MatchArms F → Bool
  | .none => false
  | .else_ body => sharesStmts body
  | .lit _ body rest => sharesStmts body || sharesArms rest
  | .compare _ _ body rest => sharesStmts body || sharesArms rest
end

/-! ## Growth of the tables -/

/-- No two names share a slot, and every slot is below the counter. -/
structure CState.Ok (cs : CState) : Prop where
  inj {x y : String} {s : Nat} : cs.locals x = some s → cs.locals y = some s → x = y
  lt {x : String} {s : Nat} : cs.locals x = some s → s < cs.next

structure Grows (lets : List String) (shares : Bool) (cs cs' : CState) : Prop where
  next : cs.next ≤ cs'.next
  fresh : cs'.fresh = cs.fresh
  old {x : String} : x ∉ lets → cs'.locals x = cs.locals x
  kept {x : String} {s : Nat} : shares = false → cs.fresh = false → cs.locals x = some s →
    cs'.locals x = some s
  new {x : String} {s : Nat} : cs'.locals x = some s →
    cs.locals x = some s ∨ x ∈ lets ∧ cs.next ≤ s
  ok : cs.Ok → cs'.Ok

namespace Grows

variable {lets lets' : List String} {shares shares' : Bool} {cs cs' cs'' : CState} {x : String}

theorem refl (cs : CState) : Grows [] false cs cs where
  next := Nat.le_refl _
  fresh := rfl
  old _ := rfl
  kept _ _ h := h
  new h := .inl h
  ok h := h

theorem trans (h : Grows lets shares cs cs') (h' : Grows lets' shares' cs' cs'') :
    Grows (lets ++ lets') (shares || shares') cs cs'' where
  next := Nat.le_trans h.next h'.next
  fresh := h'.fresh.trans h.fresh
  old hx := by
    simp only [List.mem_append, not_or] at hx
    rw [h'.old hx.2, h.old hx.1]
  kept hv hf hs := by
    simp only [Bool.or_eq_false_iff] at hv
    exact h'.kept hv.2 (h.fresh.trans hf) (h.kept hv.1 hf hs)
  new hs := by
    rcases h'.new hs with hs | ⟨hx, hle⟩
    · rcases h.new hs with hs | ⟨hx, hle⟩
      · exact .inl hs
      · exact .inr ⟨List.mem_append_left _ hx, hle⟩
    · exact .inr ⟨List.mem_append_right _ hx, Nat.le_trans h.next hle⟩
  ok hk := h'.ok (h.ok hk)

theorem mono (h : Grows lets shares cs cs') (hl : lets ⊆ lets')
    (hv : shares' = false → shares = false) : Grows lets' shares' cs cs' where
  next := h.next
  fresh := h.fresh
  old hx := h.old fun hm => hx (hl hm)
  kept hx := h.kept (hv hx)
  new hs := (h.new hs).imp_right fun ⟨hx, hle⟩ => ⟨hl hx, hle⟩
  ok := h.ok

/-- Reserving slots without a name. -/
theorem reserve (cs : CState) (n : Nat) : Grows [] false cs { cs with next := cs.next + n } where
  next := Nat.le_add_right _ _
  fresh := rfl
  old _ := rfl
  kept _ _ h := h
  new h := .inl h
  ok h := ⟨h.inj, fun hs => Nat.lt_add_right _ (h.lt hs)⟩

theorem addMut (cs : CState) (isMut : Bool) (x : String) : Grows [] false cs (cs.addMut isMut x) := by
  cases isMut
  · exact refl cs
  · exact ⟨Nat.le_refl _, rfl, fun _ => rfl, fun _ _ h => h, fun h => .inl h,
      fun h => ⟨h.inj, h.lt⟩⟩

theorem bindFresh (hf : cs.fresh = true ∨ cs.locals x = none) : Grows [x] false cs (cs.bindFresh x) where
  next := Nat.le_add_right _ _
  fresh := rfl
  old {y} hy := by
    have hne : y ≠ x := by simpa using hy
    simp [CState.bindFresh, CState.setLocal, hne]
  kept {y s} _ hfr hs := by
    have hne : y ≠ x := by
      rintro rfl
      rcases hf with hf | hf
      · rw [hfr] at hf; cases hf
      · rw [hf] at hs; cases hs
    simpa [CState.bindFresh, CState.setLocal, hne] using hs
  new {y s} hs := by
    by_cases hne : y = x
    · subst hne
      obtain rfl : cs.next = s := by simpa [CState.bindFresh, CState.setLocal] using hs
      exact .inr ⟨by simp, Nat.le_refl _⟩
    · exact .inl (by simpa [CState.bindFresh, CState.setLocal, hne] using hs)
  ok hk := by
    refine ⟨fun {y z s} hy hz => ?_, fun {y s} hy => ?_⟩
    · simp only [CState.bindFresh, CState.setLocal] at hy hz
      split_ifs at hy hz with h1 h2 h2
      · rw [h1, h2]
      · cases hy; exact absurd (hk.lt hz) (Nat.lt_irrefl _)
      · cases hz; exact absurd (hk.lt hy) (Nat.lt_irrefl _)
      · exact hk.inj hy hz
    · simp only [CState.bindFresh, CState.setLocal] at hy ⊢
      split_ifs at hy
      · cases hy; omega
      · have := hk.lt hy; omega

/-- The slot of a `let`: reused or fresh. -/
theorem letSlot {reuse : Bool} {x : String} {slot : Nat} (hf : cs.fresh = true ∨ reuse = true)
    (h : cs.letSlot reuse x = (slot, cs')) : Grows [x] false cs cs' := by
  unfold CState.letSlot at h
  split at h
  · obtain ⟨rfl, rfl⟩ := Prod.mk.inj h
    exact (refl cs).mono (by simp) (by simp)
  · rename_i hn
    obtain ⟨rfl, rfl⟩ := Prod.mk.inj h
    refine bindFresh ?_
    rcases hf with hf | rfl
    · exact .inl hf
    · exact .inr (by simpa using hn)

/-- An arm's names end with it. -/
theorem leaveArm {r : Frag F × CState}
    (h : Grows lets shares (BodyKind.arm.enter cs) r.2) :
    Grows [] false cs (BodyKind.arm.leave cs r).2 where
  next := h.next
  fresh := rfl
  old _ := rfl
  kept _ _ h := h
  new h := .inl h
  ok hk := ⟨hk.inj, fun hs => Nat.lt_of_lt_of_le (hk.lt hs) h.next⟩

/-- Where the slots come from after an `each`: from before it, from its body, or (`each x, x`) the
item's. -/
theorem unbindEach_locals {cs1 cs2 : CState} {index : Option String} {y : String} {s : Nat}
    (h1 : Grows [] false { cs with next := cs.next + 3 } cs1)
    (hb : Grows lets shares (cs1.bindEach index x (cs.next + 1) (cs.next + 2)) cs2)
    (hs : (cs2.unbindEach cs1 index x (cs.next + 2)).locals y = some s) :
    cs.locals y = some s ∨ (y = x ∧ index = some x ∧ s = cs.next + 2) ∨
      (cs2.locals y = some s ∧ y ∈ lets ∧ cs1.next ≤ s) := by
  have hold (z : String) : cs1.locals z = cs.locals z := h1.old (by simp)
  have hbnd (hy : y ≠ x) (hi : index ≠ some y) (hs : cs2.locals y = some s) :
      cs.locals y = some s ∨ (cs2.locals y = some s ∧ y ∈ lets ∧ cs1.next ≤ s) := by
    rcases hb.new hs with h | ⟨hm, hle⟩
    · left
      cases index with
      | none => simpa [CState.bindEach, CState.setLocal, hy, hold] using h
      | some i =>
        have hyi : y ≠ i := fun e => hi (by rw [e])
        simpa [CState.bindEach, CState.setLocal, hy, hyi, hold] using h
    · refine .inr ⟨hs, hm, ?_⟩
      cases index <;> exact hle
  cases index with
  | none =>
    simp only [CState.unbindEach, CState.restore] at hs
    split_ifs at hs with hy
    · left; rw [hy, ← hold]; exact hs
    · exact (hbnd hy (by simp) hs).imp_right .inr
  | some i =>
    simp only [CState.unbindEach, CState.restore, CState.setLocal] at hs
    split_ifs at hs with hy hi hy'
    · right; left
      exact ⟨hy.trans hi, by rw [hi], (Option.some.inj hs).symm⟩
    · left; rw [hy, ← hold]; exact hs
    · left; rw [hy', ← hold]; exact hs
    · exact (hbnd hy' (fun e => hy (Option.some.inj e).symm) hs).imp_right .inr

/-- The hidden slots of an `each` are above every old one. -/
theorem bindEach_ok {cs1 : CState} {index : Option String} {n : Nat} (hk : cs1.Ok)
    (hn : n + 3 ≤ cs1.next) (hlt : ∀ {z : String} {s : Nat}, cs1.locals z = some s → s < n) :
    (cs1.bindEach index x (n + 1) (n + 2)).Ok := by
  cases index with
  | none =>
    refine ⟨fun {y z s} hy hz => ?_, fun {y s} hy => ?_⟩
    · simp only [CState.bindEach, CState.setLocal] at hy hz
      split_ifs at hy hz with h2 h3 h3
      · rw [h2, h3]
      · have := hlt hz; simp only [Option.some.injEq] at hy; omega
      · have := hlt hy; simp only [Option.some.injEq] at hz; omega
      · exact hk.inj hy hz
    · simp only [CState.bindEach, CState.setLocal] at hy ⊢
      split_ifs at hy
      · simp only [Option.some.injEq] at hy; omega
      · exact hk.lt hy
  | some i =>
    refine ⟨fun {y z s} hy hz => ?_, fun {y s} hy => ?_⟩
    · simp only [CState.bindEach, CState.setLocal] at hy hz
      split_ifs at hy hz with h2 h3 h3 h3 h4 h4 h4
      · rw [h2, h3]
      · simp only [Option.some.injEq] at hy hz; omega
      · have := hlt hz; simp only [Option.some.injEq] at hy; omega
      · simp only [Option.some.injEq] at hy hz; omega
      · rw [h3, h4]
      · have := hlt hz; simp only [Option.some.injEq] at hy; omega
      · have := hlt hy; simp only [Option.some.injEq] at hz; omega
      · have := hlt hy; simp only [Option.some.injEq] at hz; omega
      · exact hk.inj hy hz
    · simp only [CState.bindEach, CState.setLocal] at hy ⊢
      split_ifs at hy
      · simp only [Option.some.injEq] at hy; omega
      · simp only [Option.some.injEq] at hy; omega
      · exact hk.lt hy

theorem each {cs1 cs2 : CState} {index : Option String}
    (h1 : Grows [] false { cs with next := cs.next + 3 } cs1)
    (hb : Grows lets shares (cs1.bindEach index x (cs.next + 1) (cs.next + 2)) cs2) :
    Grows ((if index = some x then [x] else []) ++ lets) (decide (index = some x) || shares) cs
      (cs2.unbindEach cs1 index x (cs.next + 2)) := by
  have hold (z : String) : cs1.locals z = cs.locals z := h1.old (by simp)
  have hn1 : cs.next + 3 ≤ cs1.next := h1.next
  have hn2 : cs1.next ≤ cs2.next := by cases index <;> exact hb.next
  have hf : cs2.fresh = cs.fresh := by
    rw [hb.fresh]
    cases index <;> exact h1.fresh
  refine ⟨?_, ?_, ?_, ?_, ?_, ?_⟩
  · cases index <;> simp [CState.unbindEach, CState.restore] <;> omega
  · cases index <;> simpa [CState.unbindEach, CState.restore] using hf
  · intro y hy
    simp only [List.mem_append, not_or] at hy
    cases index with
    | none =>
      simp only [CState.unbindEach, CState.restore]
      split_ifs with he
      · rw [he, hold]
      · rw [hb.old hy.2]; simp [CState.bindEach, CState.setLocal, he, hold]
    | some i =>
      simp only [CState.unbindEach, CState.restore, CState.setLocal]
      split_ifs with he hix he'
      · simp [he, hix] at hy
      · rw [he, hold]
      · rw [he', hold]
      · rw [hb.old hy.2]; simp [CState.bindEach, CState.setLocal, he, he', hold]
  · intro y s hsh hfr hs
    simp only [Bool.or_eq_false_iff, decide_eq_false_iff_not] at hsh
    have hfr' : (cs1.bindEach index x (cs.next + 1) (cs.next + 2)).fresh = false := by
      rw [← hb.fresh, hf, hfr]
    have hbody (hyx : y ≠ x) (hyi : index ≠ some y) : cs2.locals y = some s := by
      refine hb.kept hsh.2 hfr' ?_
      cases index with
      | none => simpa [CState.bindEach, CState.setLocal, hyx, hold] using hs
      | some i =>
        have hne : y ≠ i := fun e => hyi (by rw [e])
        simpa [CState.bindEach, CState.setLocal, hyx, hne, hold] using hs
    cases index with
    | none =>
      simp only [CState.unbindEach, CState.restore]
      split_ifs with he
      · rw [← he, hold, hs]
      · exact hbody he (by simp)
    | some i =>
      simp only [CState.unbindEach, CState.restore, CState.setLocal]
      split_ifs with he hix he'
      · exact absurd (by rw [hix]) hsh.1
      · rw [← he, hold, hs]
      · rw [← he', hold, hs]
      · exact hbody he' fun e => he (Option.some.inj e).symm
  · intro y s hs
    rcases unbindEach_locals h1 hb hs with h | ⟨rfl, rfl, rfl⟩ | ⟨-, hm, hle⟩
    · exact .inl h
    · exact .inr ⟨by simp, by omega⟩
    · exact .inr ⟨List.mem_append_right _ hm, by omega⟩
  · intro hk
    have hk2 : cs2.Ok := by
      refine hb.ok (bindEach_ok (h1.ok ((reserve cs 3).ok hk)) hn1 fun {z s} hs => ?_)
      rw [hold z] at hs
      exact hk.lt hs
    refine ⟨fun {y z s} hy hz => ?_, fun {y s} hy => ?_⟩
    · rcases unbindEach_locals h1 hb hy with hy' | ⟨hyx, -, hs⟩ | ⟨hy', -, hle⟩ <;>
        rcases unbindEach_locals h1 hb hz with hz' | ⟨hzx, -, hs'⟩ | ⟨hz', -, hle'⟩
      · exact hk.inj hy' hz'
      · have := hk.lt hy'; omega
      · have := hk.lt hy'; omega
      · have := hk.lt hz'; omega
      · rw [hyx, hzx]
      · omega
      · have := hk.lt hz'; omega
      · omega
      · exact hk2.inj hy' hz'
    · have hn : (cs2.unbindEach cs1 index x (cs.next + 2)).next = cs2.next := by
        cases index <;> rfl
      rw [hn]
      rcases unbindEach_locals h1 hb hy with hy | ⟨-, -, rfl⟩ | ⟨hy, -, -⟩
      · have := hk.lt hy; omega
      · omega
      · exact hk2.lt hy

end Grows

/-! ## Every compiler grows the tables -/

/-- What a block of this kind leaves behind of the names it binds. -/
def BodyKind.out (k : BodyKind) (names : List String) : List String :=
  if k = .arm then [] else names

def BodyKind.shares (k : BodyKind) (b : Bool) : Bool :=
  if k = .arm then false else b

theorem BodyKind.shares_or (k : BodyKind) (a b : Bool) :
    k.shares (a || b) = (k.shares a || k.shares b) := by
  by_cases h : k = .arm <;> simp [BodyKind.shares, h]

theorem BodyKind.out_append (k : BodyKind) (a b : List String) :
    k.out (a ++ b) = k.out a ++ k.out b := by
  by_cases h : k = .arm <;> simp [BodyKind.out, h]

theorem enter_fresh {k : BodyKind} {cs : CState}
    (hf : k.mode.isValue = true → k ≠ .arm → cs.fresh = true) (hv : k.mode.isValue = true) :
    (k.enter cs).fresh = true := by
  by_cases h : k = .arm
  · simp [BodyKind.enter, h]
  · simpa [BodyKind.enter, h] using hf hv h

/-- The blocks of a statement are compiled in its own name tables. -/
theorem nested_out (keep : Bool) (mode : Mode) (names : List String) :
    (if keep then BodyKind.keep else mode.nested).out names = names := by
  cases keep <;> cases mode <;> simp [BodyKind.out, Mode.nested]

theorem nested_shares (keep : Bool) (mode : Mode) (b : Bool) :
    (if keep then BodyKind.keep else mode.nested).shares b = b := by
  cases keep <;> cases mode <;> simp [BodyKind.shares, Mode.nested]

theorem nested_fresh {keep : Bool} {mode : Mode} {cs : CState}
    (hf : mode.isValue = true → cs.fresh = true)
    (hv : (if keep then BodyKind.keep else mode.nested).mode.isValue = true) : cs.fresh = true := by
  cases keep with
  | true => simp [BodyKind.mode, Mode.isValue] at hv
  | false => cases mode <;> simp_all [BodyKind.mode, Mode.isValue, Mode.nested]

theorem reuse_fresh {mode : Mode} {fresh : Bool} (hf : mode.isValue = true → fresh = true) :
    fresh = true ∨ mode.reuse fresh = true := by
  cases mode <;> cases fresh <;> simp_all [Mode.reuse, Mode.isValue]

section

variable [FloatModel F] {t : Tables}

omit [FloatModel F] in
/-- A block between `enter` and `leave`. -/
theorem Grows.block {k : BodyKind} {cs cs' : CState} {frag : Frag F} {x : Except String (Frag F × CState)}
    {lets : List String} {shares : Bool} (hx : (k.leave cs) <$> x = .ok (frag, cs'))
    (h : ∀ {frag cs'}, x = .ok (frag, cs') → Grows lets shares (k.enter cs) cs') :
    Grows (k.out lets) (k.shares shares) cs cs' := by
  obtain ⟨⟨frag₁, cs₁⟩, h₁, h₂⟩ := map_ok.1 hx
  have hg := h h₁
  by_cases hk : k = .arm
  · subst hk
    have := leaveArm (r := (frag₁, cs₁)) hg
    rw [h₂] at this
    exact this
  · have hle : k.leave cs (frag₁, cs₁) = (frag₁, cs₁) := by simp [BodyKind.leave, hk]
    have hen : k.enter cs = cs := by simp [BodyKind.enter, hk]
    rw [hle] at h₂
    obtain ⟨rfl, rfl⟩ := Prod.mk.inj h₂
    simpa [BodyKind.out, BodyKind.shares, hk, hen] using hg

theorem compileStmt_let {e : Expr F} (hm : e.isMatch = false) (mode : Mode) (keep isMut : Bool)
    (x : String) (cs : CState) (b : Nat) :
    compileStmt t mode keep (.letBinding x e isMut) cs b = (do
      let r := (cs.addMut isMut x).letSlot (mode.reuse cs.fresh) x
      let (c, cs) ← compileExpr t e r.2 (b + letOffset t mode x e)
      .ok (letShape t mode x e r.1 c ++ unitIf keep, cs)) := by
  cases e <;> first | rfl | simp [Expr.isMatch] at hm

theorem compileLet_plain_grows {e : Expr F} (hm : e.isMatch = false) {mode : Mode}
    {keep isMut : Bool} {x : String}
    (ih : ∀ {cs cs' : CState} {b : Nat} {frag : Frag F},
      compileExpr t e cs b = .ok (frag, cs') → Grows [] false cs cs')
    {cs cs' : CState} {b : Nat} {frag : Frag F} (hf : mode.isValue = true → cs.fresh = true)
    (h : compileStmt t mode keep (.letBinding x e isMut) cs b = .ok (frag, cs')) :
    Grows [x] false cs cs' := by
  simp only [compileStmt_let hm, bind_ok, Except.ok.injEq, Prod.mk.injEq] at h
  obtain ⟨⟨c₁, cs₁⟩, h₁, -, rfl⟩ := h
  have ga := Grows.addMut cs isMut x
  have gl : Grows [x] false (cs.addMut isMut x) ((cs.addMut isMut x).letSlot (mode.reuse cs.fresh) x).2 :=
    Grows.letSlot (by rw [ga.fresh]; exact reuse_fresh hf) rfl
  exact (ga.trans gl).trans (ih h₁)

mutual
theorem compileExpr_grows : ∀ (e : Expr F) {cs cs' : CState} {b : Nat} {frag : Frag F},
    compileExpr t e cs b = .ok (frag, cs') → Grows [] false cs cs'
  | .stringLit _, cs, cs', _, _, h | .floatLit _, cs, cs', _, _, h | .boolLit _, cs, cs', _, _, h
  | .ident _, cs, cs', _, _, h => by
    obtain ⟨-, rfl⟩ : _ ∧ cs = cs' := by simpa [compileExpr] using h
    exact .refl cs
  | .fieldAccess e _, cs, cs', b, _, h => by
    simp only [compileExpr, bind_ok, Except.ok.injEq, Prod.mk.injEq] at h
    obtain ⟨⟨c, cs₁⟩, h₁, -, rfl⟩ := h
    exact compileExpr_grows e h₁
  | .fnCall _ args _, cs, cs', b, _, h => by
    simp only [compileExpr, bind_ok, Except.ok.injEq, Prod.mk.injEq] at h
    obtain ⟨⟨c, cs₁⟩, h₁, i, -, -, rfl⟩ := h
    exact compileExprs_grows args h₁
  | .qualifiedCall _ _ args, cs, cs', b, _, h => by
    simp only [compileExpr, bind_ok, Except.ok.injEq, Prod.mk.injEq] at h
    obtain ⟨⟨c, cs₁⟩, h₁, i, -, -, rfl⟩ := h
    exact compileExprs_grows args h₁
  | .binaryOp l op r, cs, cs', b, _, h => by
    have : ∃ c₁ cs₁ b₂ c₂, compileExpr t l cs b = .ok (c₁, cs₁) ∧
        compileExpr t r cs₁ b₂ = .ok (c₂, cs') := by
      cases op <;>
      · simp only [compileExpr, bind_ok, Except.ok.injEq, Prod.mk.injEq] at h
        obtain ⟨⟨c₁, cs₁⟩, h₁, ⟨c₂, cs₂⟩, h₂, -, rfl⟩ := h
        exact ⟨c₁, cs₁, _, c₂, h₁, h₂⟩
    obtain ⟨c₁, cs₁, b₂, c₂, h₁, h₂⟩ := this
    exact (compileExpr_grows l h₁).trans (compileExpr_grows r h₂)
  | .ifElse c th el, cs, cs', b, _, h => by
    simp only [compileExpr, bind_ok, Except.ok.injEq, Prod.mk.injEq] at h
    obtain ⟨⟨c₁, cs₁⟩, h₁, ⟨c₂, cs₂⟩, h₂, ⟨c₃, cs₃⟩, h₃, -, rfl⟩ := h
    exact ((compileExpr_grows c h₁).trans (compileExpr_grows th h₂)).trans (compileExpr_grows el h₃)
  | .list items, cs, cs', b, _, h => by
    simp only [compileExpr, bind_ok, Except.ok.injEq, Prod.mk.injEq] at h
    obtain ⟨⟨c, cs₁⟩, h₁, -, rfl⟩ := h
    exact compileExprs_grows items h₁
  | .indexAccess e i, cs, cs', b, _, h => by
    simp only [compileExpr, bind_ok, Except.ok.injEq, Prod.mk.injEq] at h
    obtain ⟨⟨c₁, cs₁⟩, h₁, ⟨c₂, cs₂⟩, h₂, -, rfl⟩ := h
    exact (compileExpr_grows e h₁).trans (compileExpr_grows i h₂)
  | .structLit _ values, cs, cs', b, _, h => by
    simp only [compileExpr, bind_ok, Except.ok.injEq, Prod.mk.injEq] at h
    obtain ⟨⟨c, cs₁⟩, h₁, -, rfl⟩ := h
    exact compileExprs_grows values h₁
  | .blockIfElse c th rest, cs, cs', b, _, h => by
    simp only [compileExpr, bind_ok, Except.ok.injEq, Prod.mk.injEq] at h
    obtain ⟨⟨c₁, cs₁⟩, h₁, ⟨c₂, cs₂⟩, h₂, ⟨c₃, cs₃⟩, h₃, -, rfl⟩ := h
    have hb := Grows.block h₂ fun hx => compileStmts_grows .arm th (fun _ => rfl) hx
    have hr := compileElse_grows .arm rest (fun _ hne => absurd rfl hne) h₃
    exact ((compileExpr_grows c h₁).trans hb).trans hr
  | .matchExpr _ _, _, _, _, _, h => by simp [compileExpr] at h
  | .try_ e, cs, cs', b, _, h => by
    simp only [compileExpr, bind_ok, Except.ok.injEq, Prod.mk.injEq] at h
    obtain ⟨⟨c, cs₁⟩, h₁, -, rfl⟩ := h
    exact compileExpr_grows e h₁
  | .handleSource _, cs, cs', b, _, h => by
    simp only [compileExpr] at h
    split at h
    · obtain ⟨-, rfl⟩ : _ ∧ cs = cs' := by simpa using h
      exact .refl cs
    · simp at h
  | .provBind _ e, cs, cs', b, _, h => by
    simp only [compileExpr] at h
    split at h
    · simp only [bind_ok, Except.ok.injEq, Prod.mk.injEq] at h
      obtain ⟨⟨c, cs₁⟩, h₁, -, rfl⟩ := h
      exact compileExpr_grows e h₁
    · simp at h

theorem compileExprs_grows : ∀ (es : List (Expr F)) {cs cs' : CState} {b : Nat} {frag : Frag F},
    compileExprs t es cs b = .ok (frag, cs') → Grows [] false cs cs'
  | [], cs, cs', _, _, h => by
    obtain ⟨-, rfl⟩ : _ ∧ cs = cs' := by simpa [compileExprs] using h
    exact .refl cs
  | e :: es, cs, cs', b, _, h => by
    simp only [compileExprs, bind_ok, Except.ok.injEq, Prod.mk.injEq] at h
    obtain ⟨⟨c₁, cs₁⟩, h₁, ⟨c₂, cs₂⟩, h₂, -, rfl⟩ := h
    exact (compileExpr_grows e h₁).trans (compileExprs_grows es h₂)

theorem compileElse_grows (k : BodyKind) : ∀ (rest : ElseChain F) {cs cs' : CState} {b : Nat}
    {frag : Frag F}, (k.mode.isValue = true → k ≠ .arm → cs.fresh = true) →
    compileElse t k rest cs b = .ok (frag, cs') →
    Grows (k.out (letsElse rest)) (k.shares (sharesElse rest)) cs cs'
  | .none, cs, cs', _, _, _, h => by
    obtain ⟨-, rfl⟩ : _ ∧ cs = cs' := by simpa [compileElse] using h
    exact (Grows.refl cs).mono (by simp) (by simp)
  | .else_ body, cs, cs', _, _, hf, h => by
    simp only [compileElse] at h
    exact Grows.block h fun hx => compileStmts_grows k body (enter_fresh hf) hx
  | .elseIf c body rest, cs, cs', b, _, hf, h => by
    simp only [compileElse, bind_ok, Except.ok.injEq, Prod.mk.injEq] at h
    obtain ⟨⟨c₁, cs₁⟩, h₁, ⟨c₂, cs₂⟩, h₂, ⟨c₃, cs₃⟩, h₃, -, rfl⟩ := h
    have g₁ := compileExpr_grows c h₁
    have hf₁ : k.mode.isValue = true → k ≠ .arm → cs₁.fresh = true := fun a b =>
      g₁.fresh.trans (hf a b)
    have g₂ := Grows.block h₂ fun hx => compileStmts_grows k body (enter_fresh hf₁) hx
    have g₃ := compileElse_grows k rest (fun a b => g₂.fresh.trans (hf₁ a b)) h₃
    simpa [letsElse, sharesElse, BodyKind.out_append, BodyKind.shares_or] using (g₁.trans g₂).trans g₃

theorem compileArms_grows (k : BodyKind) (load : Instr F) : ∀ (arms : MatchArms F) {cs cs' : CState}
    {b : Nat} {frag : Frag F}, (k.mode.isValue = true → k ≠ .arm → cs.fresh = true) →
    compileArms t k load arms cs b = .ok (frag, cs') →
    Grows (k.out (letsArms arms)) (k.shares (sharesArms arms)) cs cs'
  | .none, cs, cs', _, _, _, h => by
    obtain ⟨-, rfl⟩ : _ ∧ cs = cs' := by simpa [compileArms] using h
    exact (Grows.refl cs).mono (by simp) (by simp)
  | .else_ body, cs, cs', _, _, hf, h => by
    simp only [compileArms] at h
    exact Grows.block h fun hx => compileStmts_grows k body (enter_fresh hf) hx
  | .lit _ body rest, cs, cs', b, _, hf, h => by
    simp only [compileArms, bind_ok, Except.ok.injEq, Prod.mk.injEq] at h
    obtain ⟨⟨c₂, cs₂⟩, h₂, ⟨c₃, cs₃⟩, h₃, -, rfl⟩ := h
    have g₂ := Grows.block h₂ fun hx => compileStmts_grows k body (enter_fresh hf) hx
    have g₃ := compileArms_grows k load rest (fun a b => g₂.fresh.trans (hf a b)) h₃
    simpa [letsArms, sharesArms, BodyKind.out_append, BodyKind.shares_or] using g₂.trans g₃
  | .compare _ th body rest, cs, cs', b, _, hf, h => by
    simp only [compileArms, bind_ok, Except.ok.injEq, Prod.mk.injEq] at h
    obtain ⟨⟨c₁, cs₁⟩, h₁, ⟨c₂, cs₂⟩, h₂, ⟨c₃, cs₃⟩, h₃, -, rfl⟩ := h
    have g₁ := compileExpr_grows th h₁
    have hf₁ : k.mode.isValue = true → k ≠ .arm → cs₁.fresh = true := fun a b =>
      g₁.fresh.trans (hf a b)
    have g₂ := Grows.block h₂ fun hx => compileStmts_grows k body (enter_fresh hf₁) hx
    have g₃ := compileArms_grows k load rest (fun a b => g₂.fresh.trans (hf₁ a b)) h₃
    simpa [letsArms, sharesArms, BodyKind.out_append, BodyKind.shares_or] using (g₁.trans g₂).trans g₃

theorem compileStmts_grows (k : BodyKind) : ∀ (ss : List (Stmt F)) {cs cs' : CState} {b : Nat}
    {frag : Frag F}, (k.mode.isValue = true → cs.fresh = true) →
    compileStmts t k ss cs b = .ok (frag, cs') → Grows (letsStmts ss) (sharesStmts ss) cs cs'
  | [], cs, cs', _, _, _, h => by
    obtain ⟨-, rfl⟩ : _ ∧ cs = cs' := by simpa [compileStmts] using h
    exact .refl cs
  | [s], cs, cs', _, _, hf, h => by
    simp only [compileStmts] at h
    simpa [letsStmts, sharesStmts] using compileStmt_grows k.mode k.keeps s hf h
  | s :: s' :: rest, cs, cs', b, _, hf, h => by
    simp only [compileStmts, bind_ok, Except.ok.injEq, Prod.mk.injEq] at h
    obtain ⟨⟨c₁, cs₁⟩, h₁, ⟨c₂, cs₂⟩, h₂, -, rfl⟩ := h
    have g₁ := compileStmt_grows k.mode false s hf h₁
    exact g₁.trans (compileStmts_grows k (s' :: rest) (fun a => g₁.fresh.trans (hf a)) h₂)

/-- The initializer decides which of the two `let` lowerings runs. -/
theorem compileLet_grows (mode : Mode) (keep isMut : Bool) (x : String) : ∀ (e : Expr F),
    (∀ {cs cs' : CState} {b : Nat} {frag : Frag F},
      compileExpr t e cs b = .ok (frag, cs') → Grows [] false cs cs') →
    ∀ {cs cs' : CState} {b : Nat} {frag : Frag F}, (mode.isValue = true → cs.fresh = true) →
      compileStmt t mode keep (.letBinding x e isMut) cs b = .ok (frag, cs') → Grows [x] false cs cs'
  | .matchExpr s arms, _, cs, cs', b, _, hf, h => by
    simp only [compileStmt, bind_ok, Except.ok.injEq, Prod.mk.injEq] at h
    obtain ⟨⟨c₁, cs₁⟩, h₁, ⟨c₂, cs₂⟩, h₂, -, rfl⟩ := h
    have ga := Grows.addMut cs isMut x
    have hr : (cs.addMut isMut x).fresh = true ∨ (!mode.isValue) = true := by
      cases hm : mode.isValue
      · exact .inr rfl
      · exact .inl (ga.fresh.trans (hf hm))
    have gl : Grows [x] false (cs.addMut isMut x) ((cs.addMut isMut x).letSlot (!mode.isValue) x).2 :=
      Grows.letSlot hr rfl
    have ga' := compileArms_grows .arm .dup arms (fun _ hne => absurd rfl hne) h₂
    exact ((ga.trans gl).trans (compileExpr_grows s h₁)).trans ga'
  | .stringLit _, ih, _, _, _, _, hf, h | .floatLit _, ih, _, _, _, _, hf, h
  | .boolLit _, ih, _, _, _, _, hf, h | .ident _, ih, _, _, _, _, hf, h
  | .fieldAccess _ _, ih, _, _, _, _, hf, h | .fnCall _ _ _, ih, _, _, _, _, hf, h
  | .qualifiedCall _ _ _, ih, _, _, _, _, hf, h | .binaryOp _ _ _, ih, _, _, _, _, hf, h
  | .ifElse _ _ _, ih, _, _, _, _, hf, h | .list _, ih, _, _, _, _, hf, h
  | .indexAccess _ _, ih, _, _, _, _, hf, h | .structLit _ _, ih, _, _, _, _, hf, h
  | .blockIfElse _ _ _, ih, _, _, _, _, hf, h | .try_ _, ih, _, _, _, _, hf, h
  | .handleSource _, ih, _, _, _, _, hf, h | .provBind _ _, ih, _, _, _, _, hf, h =>
    compileLet_plain_grows rfl ih hf h

theorem compileStmt_grows (mode : Mode) (keep : Bool) : ∀ (s : Stmt F) {cs cs' : CState} {b : Nat}
    {frag : Frag F}, (mode.isValue = true → cs.fresh = true) →
    compileStmt t mode keep s cs b = .ok (frag, cs') → Grows (letsStmt s) (sharesStmt s) cs cs'
  | .letBinding x e isMut, _, _, _, _, hf, h =>
    compileLet_grows mode keep isMut x e (fun hx => compileExpr_grows e hx) hf h
  | .assign x e, cs, cs', _, _, _, h => by
    simp only [compileStmt] at h
    split_ifs at h
    split at h
    · simp at h
    · simp only [bind_ok, Except.ok.injEq, Prod.mk.injEq] at h
      obtain ⟨⟨c₁, cs₁⟩, h₁, -, rfl⟩ := h
      exact compileExpr_grows e h₁
  | .return_ e, cs, cs', _, _, _, h => by
    simp only [compileStmt] at h
    split_ifs at h <;>
    · simp only [bind_ok, Except.ok.injEq, Prod.mk.injEq] at h
      obtain ⟨⟨c₁, cs₁⟩, h₁, -, rfl⟩ := h
      exact compileExpr_grows e h₁
  | .exprStmt e, cs, cs', _, _, _, h => by
    simp only [compileStmt] at h
    split_ifs at h <;>
    · simp only [bind_ok, Except.ok.injEq, Prod.mk.injEq] at h
      obtain ⟨⟨c₁, cs₁⟩, h₁, -, rfl⟩ := h
      exact compileExpr_grows e h₁
  | .while_ c body, cs, cs', _, _, hf, h => by
    simp only [compileStmt, bind_ok, Except.ok.injEq, Prod.mk.injEq] at h
    obtain ⟨⟨c₁, cs₁⟩, h₁, ⟨c₂, cs₂⟩, h₂, -, rfl⟩ := h
    have g₂ := compileStmts_grows (.plain true) body (fun hv => by simp [BodyKind.mode, Mode.isValue] at hv) h₂
    exact (compileExpr_grows c h₁).trans g₂
  | .each x it body, cs, cs', _, _, hf, h => by
    simp only [compileStmt, bind_ok, Except.ok.injEq, Prod.mk.injEq] at h
    obtain ⟨⟨c₁, cs₁⟩, h₁, ⟨c₂, cs₂⟩, h₂, -, rfl⟩ := h
    have g₂ := compileStmts_grows (.plain true) body (fun hv => by simp [BodyKind.mode, Mode.isValue] at hv) h₂
    exact Grows.each (compileExpr_grows it h₁) g₂
  | .eachWithIndex i x it body, cs, cs', _, _, hf, h => by
    simp only [compileStmt, bind_ok, Except.ok.injEq, Prod.mk.injEq] at h
    obtain ⟨⟨c₁, cs₁⟩, h₁, ⟨c₂, cs₂⟩, h₂, -, rfl⟩ := h
    have g₂ := compileStmts_grows (.plain true) body (fun hv => by simp [BodyKind.mode, Mode.isValue] at hv) h₂
    simpa [letsStmt, sharesStmt] using Grows.each (compileExpr_grows it h₁) g₂
  | .ifThen c body, cs, cs', _, _, hf, h => by
    simp only [compileStmt, bind_ok] at h
    obtain ⟨⟨c₁, cs₁⟩, h₁, ⟨c₂, cs₂⟩, h₂, h⟩ := h
    obtain rfl : cs₂ = cs' := by
      split_ifs at h <;> exact (Prod.mk.inj (Except.ok.inj h)).2
    have g₁ := compileExpr_grows c h₁
    have g₂ := compileStmts_grows _ body (nested_fresh fun hv => g₁.fresh.trans (hf hv)) h₂
    exact g₁.trans g₂
  | .ifElseBlock c body rest, cs, cs', _, _, hf, h => by
    simp only [compileStmt, bind_ok, Except.ok.injEq, Prod.mk.injEq] at h
    obtain ⟨⟨c₁, cs₁⟩, h₁, ⟨c₂, cs₂⟩, h₂, ⟨c₃, cs₃⟩, h₃, -, rfl⟩ := h
    have g₁ := compileExpr_grows c h₁
    have hf₁ : mode.isValue = true → cs₁.fresh = true := fun hv => g₁.fresh.trans (hf hv)
    have g₂ := compileStmts_grows _ body (nested_fresh hf₁) h₂
    have g₃ := compileElse_grows _ rest
      (fun hv _ => g₂.fresh.trans (nested_fresh hf₁ hv)) h₃
    rw [nested_out, nested_shares] at g₃
    exact (g₁.trans g₂).trans g₃
  | .match_ s arms, cs, cs', _, _, hf, h => by
    simp only [compileStmt] at h
    cases hv : mode.isValue with
    | true =>
      simp only [hv, if_true, bind_ok, Except.ok.injEq, Prod.mk.injEq] at h
      obtain ⟨⟨c₁, cs₁⟩, h₁, ⟨c₂, cs₂⟩, h₂, -, rfl⟩ := h
      have g₁ := compileExpr_grows s h₁
      exact g₁.trans (compileArms_grows .value .dup arms (fun _ _ => g₁.fresh.trans (hf hv)) h₂)
    | false =>
      simp only [hv, Bool.false_eq_true, if_false, bind_ok, Except.ok.injEq, Prod.mk.injEq] at h
      obtain ⟨⟨c₁, cs₁⟩, h₁, ⟨c₂, cs₂⟩, h₂, -, rfl⟩ := h
      have g₁ := (Grows.reserve cs 1).trans (compileExpr_grows s h₁)
      have g₂ := compileArms_grows _ _ arms
        (fun hv' _ => nested_fresh (fun hv => g₁.fresh.trans (hf hv)) hv') h₂
      rw [nested_out, nested_shares] at g₂
      exact g₁.trans g₂
  | .break_, cs, cs', _, _, _, h | .continue_, cs, cs', _, _, _, h => by
    obtain ⟨-, rfl⟩ : _ ∧ cs = cs' := by simpa [compileStmt] using h
    exact .refl cs
  | .memorize e _, cs, cs', _, _, _, h | .forget e _, cs, cs', _, _, _, h => by
    simp only [compileStmt, bind_ok, Except.ok.injEq, Prod.mk.injEq] at h
    obtain ⟨⟨c₁, cs₁⟩, h₁, -, rfl⟩ := h
    exact compileExpr_grows e h₁
  | .relate a b _, cs, cs', _, _, _, h => by
    simp only [compileStmt, bind_ok, Except.ok.injEq, Prod.mk.injEq] at h
    obtain ⟨⟨c₁, cs₁⟩, h₁, ⟨c₂, cs₂⟩, h₂, -, rfl⟩ := h
    exact (compileExpr_grows a h₁).trans (compileExpr_grows b h₂)
end

end

end Metalogos.Compile
