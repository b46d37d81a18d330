import Mathlib.Logic.Function.Basic
import Metalogos.Lib.Dict
import Metalogos.Lib.SlidingWindow

/-!
# The rate limiter

`check_rate_limit` and the part of `sweep_expired_state` that prunes its store
(`metalogos-server/src/server.rs:2092-2186`). A call reads the clock and tests whether its key is new and the store
full; what it does to the entry of its key it does later, in a step of its own, and any steps of other calls and of
the sweep may come between. The sweep reads the clock once and then prunes shard by shard.

Two calls with new keys that both find one place left both take it, and a call whose reading is overtaken by the
pruning of a later one counts against stamps that are gone (`limits_exceeded`). In a run without these two situations
every key has at most the limit in any window and the store has at most its number of keys (`rate_limited`).
-/
namespace Metalogos.Server

open Metalogos.Lib

/-- Seconds on the clock, which counts nanoseconds. -/
def secs (n : Nat) : Nat := n * 1000000000

/-- mirrors metalogos-server/src/server.rs:490 -/
def maxRateKeys : Nat := 65536

/-- mirrors metalogos-server/src/server.rs:494 -/
def rateWindow : Nat := secs 60

abbrev RateLimits := Dict String (List Nat)

/-- A new key when the store is at its cap is refused.
mirrors metalogos-server/src/server.rs:2146-2164 -/
def refusesKey (limits : RateLimits) (key : String) : Bool :=
  !limits.has key && decide (limits.keys.length ≥ maxRateKeys)

/-- The entry of the key, pruned, and whether the call is accepted; an accepted call adds its reading.
mirrors metalogos-server/src/server.rs:2166-2185 -/
def updateEntry (limits : RateLimits) (key : String) (now maxPerMinute : Nat) : Bool × RateLimits :=
  let entries := recent rateWindow now ((limits.get key).getD [])
  if entries.length ≥ maxPerMinute then (false, limits.set key entries)
  else (true, limits.set key (entries ++ [now]))

/-- One shard of the sweep: stamps outside the window are dropped, and keys without stamps.
mirrors metalogos-server/src/server.rs:2106-2117 -/
def sweepShard (now : Nat) (limits : RateLimits) (keys : List String) : RateLimits :=
  keys.foldl (fun limits key =>
    match limits.get key with
    | none => limits
    | some stamps =>
      let kept := recent rateWindow now stamps
      if kept = [] then limits.erase key else limits.modify key fun _ => kept) limits

/-- A call that passed the test. -/
structure RateCall where
  key : String
  now : Nat
  deriving DecidableEq, Repr

/-- `accepted` and `pruned` are no part of the server: the accepted calls, and the latest reading that a key was
updated or swept with. -/
structure Limiter where
  clock : Nat
  limits : RateLimits
  calls : Nat → Option RateCall
  sweepNow : Nat
  accepted : List (String × Nat)
  pruned : String → Nat

/-- `elapsed` is what the clock has gone on by when it is read. -/
inductive RateStep where
  | test (call : Nat) (key : String) (elapsed : Nat)
  | update (call : Nat)
  | sweepNow (elapsed : Nat)
  | sweepShard (keys : List String)

namespace Limiter

def start : Limiter := ⟨0, .empty, fun _ => none, 0, [], fun _ => 0⟩

def step (maxPerMinute : Nat) (s : Limiter) : RateStep → Limiter
  | .test call key elapsed =>
    let now := s.clock + elapsed
    if refusesKey s.limits key then { s with clock := now }
    else { s with clock := now, calls := Function.update s.calls call (some ⟨key, now⟩) }
  | .update call =>
    match s.calls call with
    | none => s
    | some c =>
      let out := updateEntry s.limits c.key c.now maxPerMinute
      { s with
        limits := out.2
        calls := Function.update s.calls call none
        accepted := if out.1 then s.accepted ++ [(c.key, c.now)] else s.accepted
        pruned := Function.update s.pruned c.key (Nat.max (s.pruned c.key) c.now) }
  | .sweepNow elapsed => { s with clock := s.clock + elapsed, sweepNow := s.clock + elapsed }
  | .sweepShard keys =>
    { s with
      limits := Server.sweepShard s.sweepNow s.limits keys
      pruned := fun k => if k ∈ keys then Nat.max (s.pruned k) s.sweepNow else s.pruned k }

def run (maxPerMinute : Nat) (s : Limiter) (steps : List RateStep) : Limiter := steps.foldl (step maxPerMinute) s

/-- The readings of the accepted calls of a key. -/
def acceptedOf (s : Limiter) (key : String) : List Nat := (s.accepted.filter (·.1 = key)).map (·.2)

/-- The stamps held of a key. -/
def stampsOf (s : Limiter) (key : String) : List Nat := (s.limits.get key).getD []

/-- An update that makes a new entry finds a place, and its reading is not older than what its key was pruned
with. -/
def Timely (s : Limiter) : RateStep → Prop
  | .update call => ∀ c, s.calls call = some c →
    (s.limits.get c.key = none → s.limits.keys.length < maxRateKeys) ∧ s.pruned c.key ≤ c.now
  | _ => True

def TimelyAll (maxPerMinute : Nat) : Limiter → List RateStep → Prop
  | _, [] => True
  | s, a :: as => s.Timely a ∧ TimelyAll maxPerMinute (s.step maxPerMinute a) as

/-- Both bounds. -/
structure Limited (maxPerMinute : Nat) (s : Limiter) : Prop where
  window : ∀ key t, (inWindow rateWindow t (s.acceptedOf key)).length ≤ maxPerMinute
  keys : s.limits.keys.length ≤ maxRateKeys

/-! ## The store -/

theorem length_keys_set (limits : RateLimits) (key : String) (stamps : List Nat) :
    (limits.set key stamps).keys.length ≤ limits.keys.length + 1 ∧
      (limits.get key ≠ none → (limits.set key stamps).keys.length ≤ limits.keys.length) := by
  have hkeys : (limits.set key stamps).keys = limits.keys.filter (· ≠ key) ++ [key] := by
    simp [Dict.keys, Dict.set, Dict.erase, List.filter_map, Function.comp_def]
  have hlen : (limits.set key stamps).keys.length = (limits.keys.filter (· ≠ key)).length + 1 := by
    rw [hkeys, List.length_append, List.length_singleton]
  refine ⟨?_, fun hsome => ?_⟩
  · have hle := List.length_filter_le (· ≠ key) limits.keys
    omega
  · have hmem : key ∈ limits.keys := (limits.mem_keys key).2 (Option.ne_none_iff_exists'.1 hsome)
    have hlt : (limits.keys.filter (· ≠ key)).length < limits.keys.length :=
      List.length_filter_lt_length_iff_exists.2 ⟨key, hmem, by simp⟩
    omega

/-- Refused with the entry pruned, or accepted within the limit. -/
theorem updateEntry_cases (limits : RateLimits) (key : String) (now maxPerMinute : Nat) :
    let entries := recent rateWindow now ((limits.get key).getD [])
    updateEntry limits key now maxPerMinute = (false, limits.set key entries) ∨
      entries.length < maxPerMinute ∧
        updateEntry limits key now maxPerMinute = (true, limits.set key (entries ++ [now])) := by
  unfold updateEntry
  dsimp only
  split
  · exact .inl rfl
  · rename_i h
    exact .inr ⟨Nat.lt_of_not_le h, rfl⟩

theorem length_keys_sweepShard (now : Nat) (limits : RateLimits) (keys : List String) :
    (Server.sweepShard now limits keys).keys.length ≤ limits.keys.length := by
  induction keys generalizing limits with
  | nil => exact Nat.le_refl _
  | cons key keys ih =>
    refine Nat.le_trans (ih _) ?_
    dsimp only
    split
    · exact Nat.le_refl _
    · split
      · have hkeys : (limits.erase key).keys = limits.keys.filter (· ≠ key) := by
          simp [Dict.keys, Dict.erase, List.filter_map, Function.comp_def]
        rw [hkeys]
        exact List.length_filter_le _ _
      · exact Nat.le_of_eq (congrArg List.length (Dict.keys_modify limits key _))

theorem get_sweepShard (now : Nat) (limits : RateLimits) (keys : List String) (key : String) :
    ((Server.sweepShard now limits keys).get key).getD [] =
      if key ∈ keys then recent rateWindow now ((limits.get key).getD []) else (limits.get key).getD [] := by
  induction keys generalizing limits with
  | nil => rfl
  | cons k keys ih =>
    unfold Server.sweepShard at ih ⊢
    rw [List.foldl_cons, ih]
    have hturn : (((match limits.get k with
        | none => limits
        | some stamps => if recent rateWindow now stamps = [] then limits.erase k
          else limits.modify k fun _ => recent rateWindow now stamps) : RateLimits).get key).getD [] =
        if key = k then recent rateWindow now ((limits.get key).getD []) else (limits.get key).getD [] := by
      cases hk : limits.get k with
      | none =>
        split_ifs with heq
        · rw [heq, hk]
          rfl
        · rfl
      | some stamps =>
        dsimp only
        by_cases heq : key = k
        · rw [if_pos heq, heq, hk]
          split_ifs with hempty
          · rw [Dict.get_erase, if_pos rfl]
            exact hempty.symm
          · rw [Dict.get_modify, if_pos rfl, hk]
            rfl
        · rw [if_neg heq]
          split_ifs
          · rw [Dict.get_erase, if_neg heq]
          · rw [Dict.get_modify, if_neg heq]
    dsimp only at hturn ⊢
    rw [hturn]
    by_cases heq : key = k
    · subst heq
      simp only [if_true, List.mem_cons, true_or, recent_recent (Nat.le_refl now), ite_self]
    · simp only [List.mem_cons, heq, false_or, if_false]

/-- What still counts of a key is never dropped by the sweep. -/
theorem sweep_keeps (maxPerMinute : Nat) (s : Limiter) (keys : List String) (key : String) :
    recent rateWindow s.sweepNow ((s.step maxPerMinute (.sweepShard keys)).stampsOf key) =
      recent rateWindow s.sweepNow (s.stampsOf key) := by
  unfold stampsOf step
  rw [get_sweepShard]
  split_ifs
  · exact recent_recent (Nat.le_refl _) _
  · rfl

/-! ## The bounds -/

/-- Every key has its stamps as it was pruned last. -/
structure Sound (maxPerMinute : Nat) (s : Limiter) : Prop where
  kept : ∀ key, Kept rateWindow (s.pruned key) (s.stampsOf key) (s.acceptedOf key)
  limited : Limited maxPerMinute s

theorem sound_start (maxPerMinute : Nat) : Sound maxPerMinute start :=
  ⟨fun _ => rfl, fun _ _ => Nat.zero_le _, Nat.zero_le _⟩

theorem acceptedOf_concat (accepted : List (String × Nat)) (key k : String) (now : Nat) :
    ((accepted ++ [(k, now)]).filter (·.1 = key)).map (·.2) =
      (accepted.filter (·.1 = key)).map (·.2) ++ if k = key then [now] else [] := by
  rw [List.filter_append, List.map_append]
  split_ifs with h <;> simp [h]

variable {maxPerMinute : Nat} {s : Limiter}

theorem Sound.test (h : Sound maxPerMinute s) (call : Nat) (key : String) (elapsed : Nat) :
    Sound maxPerMinute (s.step maxPerMinute (.test call key elapsed)) := by
  unfold step
  dsimp only
  split <;> exact ⟨h.kept, h.limited.window, h.limited.keys⟩

theorem Sound.sweepShard (h : Sound maxPerMinute s) (keys : List String) :
    Sound maxPerMinute (s.step maxPerMinute (.sweepShard keys)) := by
  refine ⟨fun key => ?_, h.limited.window, Nat.le_trans (length_keys_sweepShard _ _ _) h.limited.keys⟩
  have hkept := h.kept key
  unfold stampsOf step
  dsimp only
  rw [get_sweepShard]
  split_ifs
  · exact hkept.prune
  · exact hkept

/-- The entry of a key put in the place of what it was, at the reading of a call that is not late. -/
theorem Sound.entry (h : Sound maxPerMinute s) {c : RateCall}
    (hplace : s.limits.get c.key = none → s.limits.keys.length < maxRateKeys) (hlate : s.pruned c.key ≤ c.now)
    {entries : List Nat} {calls : Nat → Option RateCall} {accepted : List (String × Nat)}
    (hother : ∀ key, key ≠ c.key → (accepted.filter (·.1 = key)).map (·.2) = s.acceptedOf key)
    (hkept : Kept rateWindow c.now entries ((accepted.filter (·.1 = c.key)).map (·.2)))
    (hwindow : ∀ t, (inWindow rateWindow t ((accepted.filter (·.1 = c.key)).map (·.2))).length ≤ maxPerMinute) :
    Sound maxPerMinute { s with
      limits := s.limits.set c.key entries
      calls := calls
      accepted := accepted
      pruned := Function.update s.pruned c.key (Nat.max (s.pruned c.key) c.now) } := by
  refine ⟨fun key => ?_, fun key t => ?_, ?_⟩
  · by_cases hk : key = c.key
    · subst hk
      simpa [stampsOf, acceptedOf, Dict.get_set, Nat.max_eq_right hlate] using hkept
    · have hold := h.kept key
      unfold acceptedOf
      rw [hother key hk]
      simpa [stampsOf, Dict.get_set, hk] using hold
  · by_cases hk : key = c.key
    · subst hk
      exact hwindow t
    · have hold := h.limited.window key t
      rwa [← hother key hk] at hold
  · have hlen := length_keys_set s.limits c.key entries
    by_cases hnew : s.limits.get c.key = none
    · exact Nat.le_trans hlen.1 (hplace hnew)
    · exact Nat.le_trans (hlen.2 hnew) h.limited.keys

theorem Sound.update (h : Sound maxPerMinute s) {call : Nat} (ht : s.Timely (.update call)) :
    Sound maxPerMinute (s.step maxPerMinute (.update call)) := by
  cases hc : s.calls call with
  | none => simpa only [step, hc] using h
  | some c =>
    obtain ⟨hplace, hlate⟩ := ht c hc
    -- pruned at the reading, the entry holds all accepted calls that count at it
    have hcounts : recent rateWindow c.now ((s.limits.get c.key).getD []) =
        recent rateWindow c.now (s.acceptedOf c.key) := (h.kept c.key).later hlate
    have hkept : Kept rateWindow c.now (recent rateWindow c.now ((s.limits.get c.key).getD [])) (s.acceptedOf c.key) := by
      rw [hcounts]
      exact recent_recent (Nat.le_refl _) _
    unfold step
    simp only [hc]
    cases updateEntry_cases s.limits c.key c.now maxPerMinute with
    | inl hrefused =>
      rw [hrefused]
      exact h.entry hplace hlate (fun _ _ => rfl) hkept (h.limited.window c.key)
    | inr haccepted =>
      obtain ⟨hroom, hout⟩ := haccepted
      rw [hout]
      refine h.entry hplace hlate (fun key hk => ?_) ?_ fun t => ?_
      · rw [if_pos rfl, acceptedOf_concat, if_neg (Ne.symm hk), List.append_nil]
        rfl
      · rw [if_pos rfl, acceptedOf_concat, if_pos rfl]
        exact hkept.concat c.now
      · rw [if_pos rfl, acceptedOf_concat, if_pos rfl]
        exact length_inWindow_concat (h.limited.window c.key) (hcounts ▸ hroom) t

theorem Sound.step (h : Sound maxPerMinute s) {a : RateStep} (ht : s.Timely a) :
    Sound maxPerMinute (s.step maxPerMinute a) := by
  cases a with
  | test call key elapsed => exact h.test call key elapsed
  | update call => exact h.update ht
  | sweepNow elapsed => exact ⟨h.kept, h.limited.window, h.limited.keys⟩
  | sweepShard keys => exact h.sweepShard keys

theorem Sound.run (h : Sound maxPerMinute s) {steps : List RateStep} (ht : TimelyAll maxPerMinute s steps) :
    Sound maxPerMinute (s.run maxPerMinute steps) := by
  induction steps generalizing s with
  | nil => exact h
  | cons a steps ih => exact ih (h.step ht.1) ht.2

end Limiter

/-- In a run in which no update is late and none makes an entry in a full store, every key has at most
`maxPerMinute` accepted calls in any window and the store at most its number of keys; no shard of the sweep drops a
stamp that counts. -/
theorem rate_limited (maxPerMinute : Nat) (steps : List RateStep)
    (h : Limiter.start.TimelyAll maxPerMinute steps) :
    (Limiter.start.run maxPerMinute steps).Limited maxPerMinute ∧
      ∀ keys key, recent rateWindow (Limiter.start.run maxPerMinute steps).sweepNow
          (((Limiter.start.run maxPerMinute steps).step maxPerMinute (.sweepShard keys)).stampsOf key) =
        recent rateWindow (Limiter.start.run maxPerMinute steps).sweepNow
          ((Limiter.start.run maxPerMinute steps).stampsOf key) :=
  ⟨((Limiter.sound_start maxPerMinute).run h).limited, fun keys key => Limiter.sweep_keeps maxPerMinute _ keys key⟩

/-- Three calls of one key, the last refused, and a fourth after a sweep. -/
theorem rate_limited_swept :
    (Limiter.start.run 2 [.test 0 "peer" 5, .update 0, .test 1 "peer" 1, .update 1, .test 2 "peer" 1, .update 2,
      .sweepNow (secs 70), .sweepShard ["peer"], .test 3 "peer" 1, .update 3]).Limited 2 := by
  refine (rate_limited 2 [.test 0 "peer" 5, .update 0, .test 1 "peer" 1, .update 1, .test 2 "peer" 1, .update 2,
    .sweepNow (secs 70), .sweepShard ["peer"], .test 3 "peer" 1, .update 3]
    ⟨trivial, ?_, trivial, ?_, trivial, ?_, trivial, trivial, trivial, ?_, trivial⟩).1
  all_goals
    intro c hc
    cases hc
    exact ⟨fun _ => by decide +kernel, by decide +kernel⟩

namespace Sample

def key (i : Nat) : String := String.ofList (List.replicate i 'a')

theorem key_inj {i j : Nat} (h : key i = key j) : i = j := by
  have hlen := congrArg (fun s => s.toList.length) h
  simpa [key] using hlen

/-- One call after another, each with a key of its own. -/
def fill (n : Nat) : List RateStep := (List.range n).flatMap fun i => [.test i (key i) 0, .update i]

theorem run_append (maxPerMinute : Nat) (s : Limiter) (as bs : List RateStep) :
    s.run maxPerMinute (as ++ bs) = (s.run maxPerMinute as).run maxPerMinute bs :=
  List.foldl_append

theorem keys_update {s : Limiter} {call : Nat} {c : RateCall} (hc : s.calls call = some c)
    (hnew : s.limits.get c.key = none) :
    (s.step 0 (.update call)).limits.keys = s.limits.keys ++ [c.key] := by
  have hentry : (updateEntry s.limits c.key c.now 0).2 = s.limits.set c.key (recent rateWindow c.now []) := by
    simp [updateEntry, hnew]
  simp only [Limiter.step, hc]
  rw [hentry]
  exact Dict.keys_set_fresh _ hnew

theorem get_key_none {limits : RateLimits} {n i : Nat} (h : limits.keys = (List.range n).map key) (hi : n ≤ i) :
    limits.get (key i) = none := by
  rw [← Dict.has_eq_false, ← Bool.not_eq_true, Dict.has_eq_true, ← Dict.mem_keys, h]
  intro hmem
  obtain ⟨j, hj, heq⟩ := List.mem_map.1 hmem
  have hlt := List.mem_range.1 hj
  have hji := key_inj heq
  omega

theorem step_test {s : Limiter} {n i : Nat} (h : s.limits.keys = (List.range n).map key) (hn : n < maxRateKeys)
    (call : Nat) :
    s.step 0 (.test call (key i) 0) =
      { s with calls := Function.update s.calls call (some ⟨key i, s.clock⟩) } := by
  have hroom : refusesKey s.limits (key i) = false := by
    unfold refusesKey
    rw [h, List.length_map, List.length_range, decide_eq_false (Nat.not_le.2 hn), Bool.and_false]
  simp [Limiter.step, hroom]

/-- The store as far as it is filled. -/
theorem keys_fill {n : Nat} (h : n ≤ maxRateKeys) :
    (Limiter.start.run 0 (fill n)).limits.keys = (List.range n).map key := by
  induction n with
  | zero => rfl
  | succ n ih =>
    have hbefore := ih (Nat.le_of_succ_le h)
    have hfill : fill (n + 1) = fill n ++ [RateStep.test n (key n) 0, .update n] := by
      unfold fill
      rw [List.range_succ, List.flatMap_append, List.flatMap_singleton]
    rw [hfill, run_append, List.range_succ, List.map_append, List.map_singleton, ← hbefore]
    show (((Limiter.start.run 0 (fill n)).step 0 (.test n (key n) 0)).step 0 (.update n)).limits.keys = _
    rw [step_test hbefore h n]
    exact keys_update (c := ⟨key n, _⟩) (Function.update_self ..) (get_key_none hbefore (Nat.le_refl n))

/-- Two new keys, both tested while one place may be left. -/
def race (n : Nat) : List RateStep := [.test 0 (key n) 0, .test 1 (key (n + 1)) 0, .update 0, .update 1]

theorem keys_race {s : Limiter} {n : Nat} (h : s.limits.keys = (List.range n).map key) (hn : n < maxRateKeys) :
    (s.run 0 (race n)).limits.keys = (List.range (n + 2)).map key := by
  have ha := step_test (i := n) h hn 0
  have hb := step_test (s := s.step 0 (.test 0 (key n) 0)) (i := n + 1) (by rw [ha]; exact h) hn 1
  show ((((s.step 0 (.test 0 (key n) 0)).step 0 (.test 1 (key (n + 1)) 0)).step 0 (.update 0)).step 0
    (.update 1)).limits.keys = _
  rw [hb, ha]
  have hfirst := @keys_update
    { s with
      calls := Function.update (Function.update s.calls 0 (some ⟨key n, s.clock⟩)) 1 (some ⟨key (n + 1), s.clock⟩) }
    0 ⟨key n, s.clock⟩ rfl (get_key_none h (Nat.le_refl n))
  have hrange : s.limits.keys ++ [key n] = (List.range (n + 1)).map key := by
    rw [h, List.range_succ, List.map_append, List.map_singleton]
  have hsecond := @keys_update _ 1 ⟨key (n + 1), s.clock⟩ rfl
    (get_key_none (hfirst.trans hrange) (Nat.le_refl _))
  rw [hfirst, hrange] at hsecond
  rw [List.range_succ, List.map_append, List.map_singleton]
  exact hsecond

/-- Three calls of one key, of which the last stands still while the clock goes on by a minute and another call
prunes the first two. -/
def overtaken : List RateStep :=
  [.test 0 "peer" (secs 15), .update 0, .test 1 "peer" (secs 1), .update 1, .test 2 "peer" (secs 4),
    .test 3 "peer" (secs 57), .update 3, .update 2]

end Sample

/-- One key too many, when two calls pass the test while one place is left; and three accepted calls of one key
within six seconds where two are allowed. -/
theorem limits_exceeded :
    (¬ ∀ maxPerMinute steps, (Limiter.start.run maxPerMinute steps).limits.keys.length ≤ maxRateKeys) ∧
      ¬ ∀ maxPerMinute steps key t,
        (inWindow rateWindow t ((Limiter.start.run maxPerMinute steps).acceptedOf key)).length ≤ maxPerMinute := by
  constructor
  · intro h
    have hbefore := Sample.keys_fill (n := 65535) (by decide)
    have hrace := Sample.keys_race hbefore (by decide)
    have hle := h 0 (Sample.fill 65535 ++ Sample.race 65535)
    rw [Sample.run_append, hrace, List.length_map, List.length_range] at hle
    exact absurd hle (by decide)
  · intro h
    have hthree : (inWindow rateWindow (secs 15)
        ((Limiter.start.run 2 Sample.overtaken).acceptedOf "peer")).length = 3 := by decide +kernel
    have hle := h 2 Sample.overtaken "peer" (secs 15)
    rw [hthree] at hle
    exact absurd hle (by decide)

end Metalogos.Server
