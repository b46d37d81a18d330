/-!
# Computations that may fail

What a computation that ended well went through: `bind_ok` takes a bind apart, and `foldlM_relates` a whole
fold. The relation of the fold has the list as an argument: a fold over nothing changes nothing (`refl`), and
a step in front adds what its element stands for (`cons`). `foldlM_keeps` is the case of an invariant, and
`foldlM_error` finds the step at which a fold under an invariant failed. `forM_ok` and `mapM_ok` say the same of a
check and of a map: each element passed.
-/
namespace Metalogos.Lib

variable {ε α β : Type}

theorem bind_ok {x : Except ε α} {f : α → Except ε β} {r : β} :
    (x >>= f) = .ok r ↔ ∃ a, x = .ok a ∧ f a = .ok r := by
  cases x <;> simp [bind, Except.bind]

theorem map_ok {x : Except ε α} {f : α → β} {r : β} :
    (f <$> x) = .ok r ↔ ∃ a, x = .ok a ∧ f a = r := by
  cases x <;> simp [Functor.map, Except.map]

theorem foldlM_relates {step : β → α → Except ε β} {R : List α → β → β → Prop} (refl : ∀ b, R [] b b)
    (cons : ∀ {a as b b₁ b₂}, step b a = .ok b₁ → R as b₁ b₂ → R (a :: as) b b₂) (as : List α) {b b' : β}
    (h : as.foldlM step b = .ok b') : R as b b' := by
  induction as generalizing b with
  | nil =>
    cases h
    exact refl _
  | cons a as ih =>
    rw [List.foldlM_cons, bind_ok] at h
    obtain ⟨b₁, hstep, hrest⟩ := h
    exact cons hstep (ih hrest)

theorem forM_ok {f : α → Except ε Unit} {as : List α} : as.forM f = .ok () ↔ ∀ a ∈ as, f a = .ok () := by
  induction as with
  | nil => simp [pure, Except.pure]
  | cons a as ih =>
    change (f a >>= fun _ => as.forM f) = .ok () ↔ _
    rw [bind_ok, List.forall_mem_cons, ih]
    exact ⟨fun ⟨_, ha, has⟩ => ⟨ha, has⟩, fun ⟨ha, has⟩ => ⟨(), ha, has⟩⟩

theorem mapM_ok {f : α → Except ε β} {as : List α} {bs : List β} :
    as.mapM f = .ok bs ↔ as.map f = bs.map .ok := by
  induction as generalizing bs with
  | nil =>
    rw [List.mapM_nil, List.map_nil, eq_comm (a := []), List.map_eq_nil_iff]
    exact ⟨fun h => (Except.ok.inj h).symm, fun h => by rw [h]; rfl⟩
  | cons a as ih =>
    rw [List.mapM_cons, bind_ok]
    constructor
    · rintro ⟨b, hb, hrest⟩
      obtain ⟨bs', hbs, hcons⟩ := bind_ok.1 hrest
      rw [← Except.ok.inj hcons, List.map_cons, List.map_cons, hb, ih.1 hbs]
    · intro h
      cases bs with
      | nil => cases h
      | cons b bs =>
        obtain ⟨hb, hbs⟩ := List.cons.inj h
        exact ⟨b, hb, bind_ok.2 ⟨bs, ih.2 hbs, rfl⟩⟩

theorem mapM_of_ok {f : α → Except ε β} {Q : β → Prop} {as : List α} (h : ∀ a ∈ as, ∃ b, f a = .ok b ∧ Q b) :
    ∃ bs, as.mapM f = .ok bs ∧ ∀ b ∈ bs, Q b := by
  induction as with
  | nil => exact ⟨[], rfl, nofun⟩
  | cons a as ih =>
    obtain ⟨b, hb, hq⟩ := h a List.mem_cons_self
    obtain ⟨bs, hbs, hqs⟩ := ih fun x hx => h x (List.mem_cons_of_mem a hx)
    have hmap : (a :: as).map f = (b :: bs).map .ok := by rw [List.map_cons, hb, mapM_ok.1 hbs, List.map_cons]
    exact ⟨b :: bs, mapM_ok.2 hmap, List.forall_mem_cons.2 ⟨hq, hqs⟩⟩

/-- What every step keeps, the fold keeps. -/
theorem foldlM_keeps {step : β → α → Except ε β} {P : β → Prop} {as : List α} {b b' : β}
    (keep : ∀ b, ∀ a ∈ as, ∀ b', P b → step b a = .ok b' → P b') (hb : P b) (h : as.foldlM step b = .ok b') :
    P b' := by
  induction as generalizing b with
  | nil =>
    cases h
    exact hb
  | cons a as ih =>
    rw [List.foldlM_cons, bind_ok] at h
    obtain ⟨b₁, hstep, hrest⟩ := h
    exact ih (fun b x hx => keep b x (List.mem_cons_of_mem a hx)) (keep b a List.mem_cons_self b₁ hb hstep) hrest

/-- A fold fails because one of its steps does. -/
theorem foldlM_error {step : β → α → Except ε β} {P : β → Prop} {as : List α} {b : β} {e : ε}
    (keep : ∀ b, ∀ a ∈ as, ∀ b', P b → step b a = .ok b' → P b') (hb : P b) (h : as.foldlM step b = .error e) :
    ∃ b', P b' ∧ ∃ a ∈ as, step b' a = .error e := by
  induction as generalizing b with
  | nil => cases h
  | cons a as ih =>
    rw [List.foldlM_cons] at h
    cases hstep : step b a with
    | error e' =>
      rw [hstep] at h
      cases h
      exact ⟨b, hb, a, List.mem_cons_self, hstep⟩
    | ok b₁ =>
      rw [hstep] at h
      obtain ⟨b', hb', x, hx, hfail⟩ := ih (fun b x hx => keep b x (List.mem_cons_of_mem a hx))
        (keep b a List.mem_cons_self b₁ hb hstep) h
      exact ⟨b', hb', x, List.mem_cons_of_mem a hx, hfail⟩

end Metalogos.Lib
