import Mathlib.Data.List.Infix

/-!
# Readers

A reader takes a value from the front of its input, or fails. `Reads r s a` says that `r` takes exactly `s` and gives
`a`, whatever comes behind; `Local r` that a result does not change when the input goes on. Both go through `bind` and
through a count (`times`). Together they keep a truncated input out: a reader that takes all of `s` fails on every
proper prefix of `s` (`Reads.refuses`).
-/
namespace Metalogos.Lib

abbrev Reader (β α : Type) := StateT (List β) (Except String) α

namespace Reader

variable {β α γ : Type}

def Reads (r : Reader β α) (s : List β) (a : α) : Prop := ∀ rest, r.run (s ++ rest) = .ok (a, rest)

def Local (r : Reader β α) : Prop := ∀ s t a rest, r.run s = .ok (a, rest) → r.run (s ++ t) = .ok (a, rest ++ t)

theorem run_bind_ok {r : Reader β α} {f : α → Reader β γ} {s : List β} {c : γ} {rest : List β} :
    (r >>= f).run s = .ok (c, rest) ↔ ∃ a mid, r.run s = .ok (a, mid) ∧ (f a).run mid = .ok (c, rest) := by
  rw [StateT.run_bind]
  rcases r.run s with e | ⟨a, mid⟩ <;> simp [bind, Except.bind]

theorem reads_pure (a : α) : Reads (pure a : Reader β α) [] a := fun _ => rfl

theorem Reads.bind {r : Reader β α} {f : α → Reader β γ} {s t : List β} {a : α} {c : γ} (hr : r.Reads s a)
    (hf : (f a).Reads t c) : (r >>= f).Reads (s ++ t) c := by
  intro rest
  rw [List.append_assoc]
  exact run_bind_ok.2 ⟨a, t ++ rest, hr _, hf rest⟩

theorem local_pure (a : α) : Local (pure a : Reader β α) := by
  intro s t b rest h
  obtain ⟨rfl, rfl⟩ := Prod.mk.inj (Except.ok.inj h)
  rfl

theorem Local.bind {r : Reader β α} {f : α → Reader β γ} (hr : r.Local) (hf : ∀ a, (f a).Local) :
    (r >>= f).Local := by
  intro s t c rest h
  obtain ⟨a, mid, hfirst, hsecond⟩ := run_bind_ok.1 h
  exact run_bind_ok.2 ⟨a, mid ++ t, hr _ _ _ _ hfirst, hf a _ _ _ _ hsecond⟩

/-- So many values from the front. -/
def taking (n : Nat) (short : String) : Reader β (List β) := fun s =>
  if s.length < n then .error short else .ok (s.take n, s.drop n)

theorem reads_taking (s : List β) (short : String) : Reads (taking s.length short) s s := by
  intro rest
  have hlong : ¬(s ++ rest).length < s.length := by
    rw [List.length_append]
    omega
  have htake : taking s.length short (s ++ rest) = .ok ((s ++ rest).take s.length, (s ++ rest).drop s.length) :=
    if_neg hlong
  rwa [List.take_left, List.drop_left] at htake

theorem local_taking (n : Nat) (short : String) : Local (taking n short : Reader β (List β)) := by
  intro s t a rest h
  change (if s.length < n then _ else _) = _ at h
  split_ifs at h with hshort
  obtain ⟨rfl, rfl⟩ := Prod.mk.inj (Except.ok.inj h)
  have hlong : ¬(s ++ t).length < n := by
    rw [List.length_append]
    omega
  change (if (s ++ t).length < n then _ else _) = _
  rw [if_neg hlong, List.take_append_of_le_length (Nat.not_lt.1 hshort),
    List.drop_append_of_le_length (Nat.not_lt.1 hshort)]

/-- A value that is there or is missed. -/
def orFail (o : Option α) (missed : String) : Reader β α :=
  match o with
  | some a => pure a
  | none => throw missed

theorem local_orFail (o : Option α) (missed : String) : Local (orFail o missed : Reader β α) := by
  cases o with
  | some a => exact local_pure a
  | none =>
    intro s t a rest h
    cases h

/-- The reader, so many times. -/
def times (r : Reader β α) : Nat → Reader β (List α)
  | 0 => pure []
  | n + 1 => r >>= fun a => times r n >>= fun as => pure (a :: as)

theorem Reads.times {r : Reader β α} {enc : α → List β} {as : List α} (h : ∀ a ∈ as, r.Reads (enc a) a) :
    (times r as.length).Reads (as.flatMap enc) as := by
  induction as with
  | nil => exact reads_pure []
  | cons a as ih =>
    have hrest := ih fun b hb => h b (List.mem_cons_of_mem _ hb)
    rw [List.flatMap_cons]
    refine (h a List.mem_cons_self).bind ?_
    rw [← List.append_nil (as.flatMap enc)]
    exact hrest.bind (reads_pure _)

theorem Local.times {r : Reader β α} (h : r.Local) (n : Nat) : (times r n).Local := by
  induction n with
  | zero => exact local_pure []
  | succ n ih => exact h.bind fun a => ih.bind fun as => local_pure _

/-- A proper prefix of what is read whole is not accepted. -/
theorem Reads.refuses {r : Reader β α} {s p : List β} {a : α} (h : r.Reads s a) (hl : r.Local) (hp : p <+: s)
    (hne : p ≠ s) : ∃ e, r.run p = .error e := by
  obtain ⟨t, rfl⟩ := hp
  cases hrun : r.run p with
  | error e => exact ⟨e, rfl⟩
  | ok out =>
    have hwhole : r.run (p ++ t) = .ok (out.1, out.2 ++ t) := hl p t _ _ hrun
    have hall := h []
    rw [List.append_nil, hwhole] at hall
    have hnil : out.2 ++ t = [] := (Prod.mk.inj (Except.ok.inj hall)).2
    rw [(List.append_eq_nil_iff.1 hnil).2, List.append_nil] at hne
    exact absurd rfl hne

end Reader

end Metalogos.Lib
