import Mathlib.Data.List.Basic

/-!
# Sliding windows

A log of time stamps of which only the recent ones are kept: at `now` a stamp counts for the length `w` of the
window from itself on. What was dropped at one time counts at no later one (`recent_recent`), so a log that is
pruned in the order of time holds everything that counts (`Kept`), and a bound on what counts whenever a stamp is
added is a bound on every window (`count_window_concat`).
-/
namespace Metalogos.Lib

variable {w now p t limit : Nat} {stamps log : List Nat}

/-- The stamps that still count. -/
def recent (w now : Nat) (stamps : List Nat) : List Nat := stamps.filter fun t => now < t + w

theorem recent_append (stamps log : List Nat) :
    recent w now (stamps ++ log) = recent w now stamps ++ recent w now log :=
  List.filter_append ..

/-- Of what counts later, nothing was dropped earlier. -/
theorem recent_recent (h : p ≤ now) (stamps : List Nat) : recent w now (recent w p stamps) = recent w now stamps := by
  unfold recent
  rw [List.filter_filter]
  refine List.filter_congr fun t _ => ?_
  simp only [← Bool.decide_and, decide_eq_decide]
  omega

/-- Everything of the log that counts at `p` is among the stamps, and nothing else that counts. -/
def Kept (w p : Nat) (stamps log : List Nat) : Prop := recent w p stamps = recent w p log

theorem Kept.later (h : Kept w p stamps log) (hle : p ≤ now) : Kept w now stamps log := by
  have hlog := congrArg (recent w now) h
  rwa [recent_recent hle, recent_recent hle] at hlog

/-- Pruning at a time, early or late. -/
theorem Kept.prune (h : Kept w p stamps log) : Kept w (Nat.max p now) (recent w now stamps) log := by
  have hlater := h.later (Nat.le_max_left p now)
  unfold Kept
  rw [recent_recent (Nat.le_max_right p now)]
  exact hlater

theorem Kept.concat (h : Kept w now stamps log) (t : Nat) : Kept w now (stamps ++ [t]) (log ++ [t]) := by
  unfold Kept
  rw [recent_append, recent_append, h]

/-- The stamps of a window that starts at `t`. -/
def inWindow (w t : Nat) (log : List Nat) : List Nat := log.filter fun a => t ≤ a ∧ a < t + w

/-- A window with the new stamp in it holds nothing that does not count at the new stamp. -/
theorem length_inWindow_concat (hall : ∀ t, (inWindow w t log).length ≤ limit)
    (h : (recent w now log).length < limit) (t : Nat) : (inWindow w t (log ++ [now])).length ≤ limit := by
  unfold inWindow
  rw [List.filter_append, List.length_append]
  by_cases hin : t ≤ now ∧ now < t + w
  · have hsub : (log.filter fun a => t ≤ a ∧ a < t + w).length ≤ (recent w now log).length := by
      refine (List.monotone_filter_right log fun a ha => ?_).length_le
      simp only [decide_eq_true_eq] at ha ⊢
      omega
    rw [List.filter_cons_of_pos (by simpa using hin), List.filter_nil, List.length_singleton]
    omega
  · rw [List.filter_cons_of_neg (by simpa using hin), List.filter_nil, List.length_nil]
    exact hall t

end Metalogos.Lib
