import Metalogos.Refine.Setup
import Metalogos.Refine.Scope

/-!
# Related states

What ties a tree-walker state to a machine state while a body runs:

* `Clean`: the events of a run on which the backends are known to agree. Each line names a place
  where they would part: an operator text, an index out of range, a store while operands wait, a
  value register that is not reset.
* `Ext`: what happened to the cells of a frame.
* `Sync`: the names in scope hold the same values in the environment and in their slots.
* `Guard`: cells that must stay as they are, and the names they belong to.
* `Regs`: the value register follows the running value of a block.
* `Base`: what a loop expects to find again at its head.
* `Failed`: the machine a failed run leaves behind.
-/
namespace Metalogos.Refine

open Metalogos.Lang Metalogos.Machine Metalogos.Compile Metalogos.Walk Metalogos.Lib

variable {F W : Type}

/-! ## Clean runs -/

/-- Where in a body an event happens: the mode of its block, whether an arm is open, whether a
slot may be written (no operand waits), whether the block's last value is the body's, and whether
that value has to be the tree-walker's. -/
structure Ctx where
  mode : Mode
  inArm : Bool
  st : Bool
  tail : Bool
  precise : Bool

namespace Ctx

def pend (c : Ctx) : Ctx := { c with st := false }

def arm (c : Ctx) : Ctx := { c with mode := .arm, inArm := true, tail := false }

def loop (c : Ctx) : Ctx := { c with mode := .plain true, tail := false }

def blk (c : Ctx) (isLast : Bool) : Ctx := { c with mode := c.mode.inner, tail := c.tail && isLast }

/-- The value of this statement stays on the stack. -/
def keep (c : Ctx) (isLast : Bool) : Bool := c.tail && isLast

end Ctx

variable [FloatModel F]

def Clean (c : Ctx) : Event F → Prop
  | .read _ _ => True
  | .ne l r => comparable l r = true
  | .index b i => (∃ v, twIndex b i = .ok v) ∧ ∀ s, b ≠ .string s
  | .refused _ => False
  | .limit => False
  | .items n => n < 2 ^ 53
  | .store => c.st = true
  | .scrut => c.st = true ∨ c.mode.isValue = true
  | .stmt last v isLast =>
    (v.isHttpResponse = true → isLast = true ∧ (c.mode = .arm ∨ c.tail = true)) ∧
    (c.precise = true → c.keep isLast = true → v = .unit → last = .unit)
  | .silent last isLast => c.precise = true → c.keep isLast = true → last = .unit
  | .reset last => c.mode.isValue = true → last = .unit
  | .taken last v => c.mode.isValue = true → v = .unit → last = .unit
  | .ret isLast => c.inArm = true → c.mode = .arm ∧ isLast = true
  | .pend e => Clean c.pend e
  | .arm e => Clean c.arm e
  | .loop e => Clean c.loop e
  | .blk isLast e => Clean (c.blk isLast) e

omit [FloatModel F]

/-! ## Cells -/

/-- Cells may be added; those in `P` are kept, and all of them where nothing may be stored. -/
structure Ext (P : Nat → Prop) (st : Bool) (a b : List (Value F)) : Prop where
  le : a.length ≤ b.length
  cells {s : Nat} : P s → s < a.length → b[s]? = a[s]?
  same : st = false → b = a

namespace Ext

variable {P P' : Nat → Prop} {st st' : Bool} {a b c vs : List (Value F)}

theorem refl (a : List (Value F)) : Ext P st a a :=
  ⟨Nat.le_refl _, fun _ _ => rfl, fun _ => rfl⟩

theorem trans (h : Ext P st a b) (h' : Ext P st b c) : Ext P st a c where
  le := Nat.le_trans h.le h'.le
  cells hp hs := (h'.cells hp (Nat.lt_of_lt_of_le hs h.le)).trans (h.cells hp hs)
  same hst := (h'.same hst).trans (h.same hst)

theorem mono (h : Ext P st a b) (hp : ∀ s, P' s → P s) : Ext P' st a b :=
  ⟨h.le, fun hs => h.cells (hp _ hs), h.same⟩

/-- A run above waiting operands, cut back to where they started. -/
theorem cut (h : Ext P st a b) (h' : Ext P st' (b ++ vs) c) (hst : st = false → st' = false) :
    Ext P st a (c.take b.length) := by
  have hl : b.length ≤ c.length := Nat.le_trans (by simp) h'.le
  refine ⟨?_, ?_, ?_⟩
  · simp only [List.length_take]
    have := h.le
    omega
  · intro s hp hs
    have hsb : s < b.length := Nat.lt_of_lt_of_le hs h.le
    rw [List.getElem?_take_of_lt hsb, h'.cells hp (by simp; omega), List.getElem?_append_left hsb,
      h.cells hp hs]
  · intro hf
    rw [h'.same (hst hf), List.take_left', h.same hf]
    rfl

/-- A cell above the frame that a run above it left: dropping the last cell drops no old one. -/
theorem dropLast {v : Value F} (h : Ext P st (a ++ [v]) b) : Ext P st a b.dropLast := by
  have hl : a.length + 1 ≤ b.length := by simpa using h.le
  refine ⟨by simp; omega, fun {s} hp hs => ?_, fun hf => ?_⟩
  · rw [List.getElem?_dropLast, if_pos (by omega), h.cells hp (by simp; omega),
      List.getElem?_append_left hs]
  · rw [h.same hf, List.dropLast_concat]

end Ext

/-! ## Names -/

/-- Slot and environment agree on `x`. -/
def Holds (locals : String → Option Nat) (env : Env F) (frame : List (Value F)) (x : String) :
    Prop :=
  ∃ s v, locals x = some s ∧ env x = some v ∧ frame[s]? = some v

structure Sync (Γ : Scope) (cs : CState) (env : Env F) (frame : List (Value F)) : Prop where
  live : ∃ names, Γ.bound = some names ∧ ∀ x ∈ names, Holds cs.locals env frame x
  may {x : String} {v : Value F} : env x = some v → x ∈ Γ.may
  slots {x : String} {s : Nat} : cs.locals x = some s → x ∈ Γ.slots
  ok : cs.Ok

/-- The cells in `P` are protected: the names that live in them are, and they exist already. -/
structure Guard (P : Nat → Prop) (Γ : Scope) (cs : CState) : Prop where
  prot {x : String} {s : Nat} : cs.locals x = some s → P s → x ∈ Γ.prot
  lt {s : Nat} : P s → s < cs.next

namespace Sync

variable {Γ : Scope} {cs cs' : CState} {env : Env F} {frame frame' vs : List (Value F)} {st : Bool}

theorem append (h : Sync Γ cs env frame) : Sync Γ cs env (frame ++ vs) where
  live := by
    obtain ⟨names, hb, hn⟩ := h.live
    refine ⟨names, hb, fun x hx => ?_⟩
    obtain ⟨s, v, h1, h2, h3⟩ := hn x hx
    obtain ⟨hlt, -⟩ := List.getElem?_eq_some_iff.1 h3
    exact ⟨s, v, h1, h2, by rw [List.getElem?_append_left hlt, h3]⟩
  may := h.may
  slots := h.slots
  ok := h.ok

/-- An expression grows the tables and keeps the cells of all names. -/
theorem grow (h : Sync Γ cs env frame) (hg : Grows [] false cs cs')
    (he : Ext (· < cs.next) st frame frame') : Sync Γ cs' env frame' where
  live := by
    obtain ⟨names, hb, hn⟩ := h.live
    refine ⟨names, hb, fun x hx => ?_⟩
    obtain ⟨s, v, h1, h2, h3⟩ := hn x hx
    obtain ⟨hlt, -⟩ := List.getElem?_eq_some_iff.1 h3
    exact ⟨s, v, by rw [hg.old (by simp), h1], h2, by rw [he.cells (h.ok.lt h1) hlt, h3]⟩
  may := h.may
  slots hs := h.slots (by rwa [hg.old (by simp)] at hs)
  ok := hg.ok h.ok

/-- From one way control can come to a point where several meet: the text in between was compiled
but not run. -/
theorem join {Γ' : Scope} {lets : List String} {shares : Bool} (h : Sync Γ cs env frame)
    (hg : Grows lets shares cs cs') (hsh : shares = false)
    (hb : ∀ l, Γ.bound = some l → ∃ l', Γ'.bound = some l' ∧
      ∀ x ∈ l', x ∈ l ∧ (cs.fresh = true → x ∉ lets))
    (hm : ∀ x ∈ Γ.may, x ∈ Γ'.may) (hsl : ∀ x, x ∈ Γ.slots ∨ x ∈ lets → x ∈ Γ'.slots) :
    Sync Γ' cs' env frame where
  live := by
    obtain ⟨l, hl, hn⟩ := h.live
    obtain ⟨l', hl', hsub⟩ := hb l hl
    refine ⟨l', hl', fun x hx => ?_⟩
    obtain ⟨hxl, hfr⟩ := hsub x hx
    obtain ⟨s, v, h1, h2, h3⟩ := hn x hxl
    refine ⟨s, v, ?_, h2, h3⟩
    cases hf : cs.fresh with
    | true => rw [hg.old (hfr hf), h1]
    | false => exact hg.kept hsh hf h1
  may hv := hm _ (h.may hv)
  slots hs := by
    rcases hg.new hs with h' | ⟨hx, -⟩
    · exact hsl _ (.inl (h.slots h'))
    · exact hsl _ (.inr hx)
  ok := hg.ok h.ok

/-- Knowing less. -/
theorem weaken {Γ' : Scope} (h : Sync Γ cs env frame)
    (hb : ∀ l, Γ.bound = some l → ∃ l', Γ'.bound = some l' ∧ ∀ x ∈ l', x ∈ l)
    (hm : ∀ x ∈ Γ.may, x ∈ Γ'.may) (hsl : ∀ x ∈ Γ.slots, x ∈ Γ'.slots) : Sync Γ' cs env frame := by
  refine h.join (Grows.refl cs) rfl (fun l hl => ?_) hm fun x hx => hsl x (by simpa using hx)
  obtain ⟨l', hl', hsub⟩ := hb l hl
  exact ⟨l', hl', fun x hx => ⟨hsub x hx, by simp⟩⟩

end Sync

theorem Guard.grow {P : Nat → Prop} {Γ Γ' : Scope} {cs cs' : CState} {lets : List String}
    {shares : Bool} (h : Guard P Γ cs) (hg : Grows lets shares cs cs') (hp : Γ'.prot = Γ.prot) :
    Guard P Γ' cs' where
  prot hs hP := by
    rw [hp]
    rcases hg.new hs with h' | ⟨-, hle⟩
    · exact h.prot h' hP
    · exact absurd (h.lt hP) (Nat.not_lt.2 hle)
  lt hP := Nat.lt_of_lt_of_le (h.lt hP) hg.next

/-! ## Registers -/

/-- In an arm the innermost register follows the running value `last`; where there is none it may
still hold `stale`, what was there when the block was entered. -/
def Regs (mode : Mode) (rs : List (Value F)) (stale last : Value F) (regs : List (Value F)) : Prop :=
  if mode.isValue then
    ∃ r, regs = r :: rs ∧ (last ≠ .unit → r = last) ∧ (last = .unit → r = stale ∨ r = .unit)
  else regs = rs

/-! ## Loops -/

/-- What the head of the innermost loop relies on. -/
structure Base where
  bound : List String
  may : List String
  locals : String → Option Nat

/-- A piece of text that binds `lets` and loops over `vars` lies inside the loop. -/
structure Base.Inside (L : Base) (Γ : Scope) (cs : CState) (lets vars : List String) : Prop where
  bound {x : String} : x ∈ L.bound → Has Γ.bound x
  locals {x : String} : x ∈ L.bound → cs.locals x = L.locals x
  may {x : String} : x ∈ Γ.may ∨ x ∈ lets ∨ x ∈ vars → x ∈ L.may
  vars {x : String} : x ∈ L.bound → x ∉ vars
  lets {x : String} : cs.fresh = true → x ∈ L.bound → x ∉ lets

def Base.Holds (L : Base) (env : Env F) (frame : List (Value F)) : Prop :=
  (∀ x ∈ L.bound, Refine.Holds L.locals env frame x) ∧ ∀ x v, env x = some v → x ∈ L.may

theorem Base.Inside.holds {L : Base} {Γ : Scope} {cs : CState} {lets vars : List String}
    {env : Env F} {frame : List (Value F)} (h : L.Inside Γ cs lets vars)
    (hs : Sync Γ cs env frame) : L.Holds env frame := by
  obtain ⟨names, hb, hn⟩ := hs.live
  refine ⟨fun x hx => ?_, fun x v hv => h.may (.inl (hs.may hv))⟩
  obtain ⟨s, v, h1, h2, h3⟩ := hn x (h.bound hx names hb)
  exact ⟨s, v, by rw [← h.locals hx, h1], h2, h3⟩

namespace Base.Inside

variable {L : Base} {Γ : Scope} {cs cs' : CState} {lets vars lets' vars' : List String}
  {shares : Bool} {env : Env F} {frame : List (Value F)}

theorem sub (h : L.Inside Γ cs lets vars) (hl : ∀ x ∈ lets', x ∈ lets) (hv : ∀ x ∈ vars', x ∈ vars) :
    L.Inside Γ cs lets' vars' where
  bound := h.bound
  locals := h.locals
  may hx := h.may (hx.imp id (Or.imp (hl _) (hv _)))
  vars hx hm := h.vars hx (hv _ hm)
  lets hf hx hm := h.lets hf hx (hl _ hm)

/-- The names a loop relies on keep their slots while text inside it is compiled. -/
theorem locals_grow (h : L.Inside Γ cs lets vars) (hs : Sync Γ cs env frame)
    (hg : Grows lets' shares cs cs') (hsh : shares = false) (hl : ∀ x ∈ lets', x ∈ lets)
    {x : String} (hx : x ∈ L.bound) : cs'.locals x = L.locals x := by
  rw [← h.locals hx]
  cases hf : cs.fresh with
  | true => exact hg.old fun hm => h.lets hf hx (hl x hm)
  | false =>
    obtain ⟨names, hb, hn⟩ := hs.live
    obtain ⟨s, -, h1, -⟩ := hn x (h.bound hx names hb)
    rw [h1, hg.kept hsh hf h1]

theorem grow (h : L.Inside Γ cs lets vars) (hs : Sync Γ cs env frame)
    (hg : Grows [] false cs cs') : L.Inside Γ cs' lets vars where
  bound := h.bound
  locals := h.locals_grow hs hg rfl (by simp)
  may := h.may
  vars := h.vars
  lets hf := h.lets (hg.fresh ▸ hf)

/-- Text of the loop that was compiled but not run. -/
theorem past (h : L.Inside Γ cs lets vars) (hs : Sync Γ cs env frame)
    (hg : Grows lets' shares cs cs') (hsh : shares = false) (hl : ∀ x ∈ lets', x ∈ lets) :
    L.Inside (Γ.past cs.fresh lets') cs' lets vars where
  bound hx := (h.bound hx).dropIf fun hf hm => h.lets hf hx (hl _ hm)
  locals := h.locals_grow hs hg hsh hl
  may := h.may
  vars := h.vars
  lets hf := h.lets (hg.fresh ▸ hf)

/-- A statement of the loop that ran. -/
theorem after {mode : Mode} {s : Stmt F} (h : L.Inside Γ cs (letsStmt s ++ lets) (loopVarsStmt s ++ vars))
    (hs : Sync Γ cs env frame) (hg : Grows (letsStmt s) (sharesStmt s) cs cs')
    (hsh : sharesStmt s = false) (hm : mode.isValue = true → cs.fresh = true) :
    L.Inside (Γ.after mode cs.fresh s) cs' lets vars where
  bound {x} hx := flowStmt_has hm s (h.bound hx) (fun hv => h.vars hx (List.mem_append_left _ hv))
    fun hf hl => h.lets hf hx (List.mem_append_left _ hl)
  locals := h.locals_grow hs hg hsh fun x hx => List.mem_append_left _ hx
  may {x} hx := by
    refine h.may ?_
    simp only [Scope.after, List.mem_append] at hx ⊢
    tauto
  vars hx hm := h.vars hx (List.mem_append_right _ hm)
  lets hf hx hm := h.lets (hg.fresh ▸ hf) hx (List.mem_append_right _ hm)

/-- A block of the loop that ran to its end. -/
theorem afters (mode : Mode) {ss : List (Stmt F)}
    (h : L.Inside Γ cs (letsStmts ss) (loopVarsStmts ss)) (hs : Sync Γ cs env frame)
    (hg : Grows (letsStmts ss) (sharesStmts ss) cs cs') (hsh : sharesStmts ss = false)
    (hm : mode.isValue = true → cs.fresh = true) :
    L.Inside (Γ.afters mode cs.fresh ss) cs' [] [] where
  bound hx := by
    rw [afters_bound]
    exact flowStmts_has hm ss (h.bound hx) (h.vars hx) fun hf => h.lets hf hx
  locals := h.locals_grow hs hg hsh fun _ hx => hx
  may hx := by
    simp only [List.not_mem_nil, or_false] at hx
    exact h.may (mem_afters_may.1 hx)
  vars _ := by simp
  lets _ _ := by simp

end Base.Inside

/-- What the head of a loop finds again after each round. -/
def Base.head (Γ : Scope) (cs : CState) : Base := ⟨Γ.bound.getD [], Γ.may, cs.locals⟩

theorem Sync.of_head {Γ : Scope} {cs : CState} {env env' : Env F} {frame frame' : List (Value F)}
    (hs : Sync Γ cs env frame) (h : (Base.head Γ cs).Holds env' frame') : Sync Γ cs env' frame' where
  live := by
    obtain ⟨names, hb, -⟩ := hs.live
    exact ⟨names, hb, fun x hx => h.1 x (by simpa [Base.head, hb] using hx)⟩
  may hv := h.2 _ _ hv
  slots := hs.slots
  ok := hs.ok

/-! ## Labels, failure -/

/-- Only the names in `T` may carry a label. -/
def LabelsIn (T : List String) (le : LabelEnv) : Prop := ∀ x, x ∉ T → (le x).getD {} = {}

/-- The machine after an error: everything the body does not own is in place, and so are the cells
of its frame. -/
structure Failed (X : Fixed F) (P : Nat → Prop) (st : Bool) (frame : List (Value F))
    (T : List String) (w : W) (m : Mach F W) : Prop where
  world : m.vm.world = w
  labels : LabelsIn T m.vm.labelEnv
  globals : m.vm.globals = X.globals
  deny : m.vm.denyEvent = X.denyEvent
  depth : m.vm.callDepth = X.depth
  calls : X.callStack <+: m.callStack
  cells : ∃ frame', Ext P st frame frame' ∧ X.low ++ frame' <+: m.stack

namespace Failed

variable {X : Fixed F} {P P' : Nat → Prop} {st st' : Bool} {frame frame' vs regs : List (Value F)}
  {T : List String} {w : W} {m : Mach F W} {le : LabelEnv}

theorem of_mach (he : Ext P st frame frame') (hl : LabelsIn T le) :
    Failed X P st frame T w (X.mach (frame' ++ vs) regs le w) where
  world := rfl
  labels := hl
  globals := rfl
  deny := rfl
  depth := rfl
  calls := List.prefix_rfl
  cells := ⟨frame', he, by simp [Fixed.mach, ← List.append_assoc]⟩

theorem here (he : Ext P st frame frame') (hl : LabelsIn T le) :
    Failed X P st frame T w (X.mach frame' regs le w) :=
  ⟨rfl, hl, rfl, rfl, rfl, List.prefix_rfl, frame', he, List.prefix_rfl⟩

/-- A failure above waiting operands is one of the whole expression. -/
theorem cut (he : Ext P st frame frame') (h : Failed X P' st' (frame' ++ vs) T w m)
    (hp : ∀ s, P s → P' s) (hst : st = false → st' = false) : Failed X P st frame T w m where
  world := h.world
  labels := h.labels
  globals := h.globals
  deny := h.deny
  depth := h.depth
  calls := h.calls
  cells := by
    obtain ⟨fr, hx, hpre⟩ := h.cells
    refine ⟨fr.take frame'.length, he.cut (hx.mono hp) hst, ?_⟩
    exact List.IsPrefix.trans ((List.prefix_append_right_inj _).2 (List.take_prefix _ _)) hpre

end Failed

end Metalogos.Refine
