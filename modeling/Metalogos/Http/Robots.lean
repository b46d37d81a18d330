import Metalogos.Lib.ByteCut
import Metalogos.Lib.Text
import Mathlib.Data.List.Infix

/-!
# The robots rules

`RobotsRules::parse` keeps the rules between the first `User-agent: *` line and the next line that names an agent, and
`allows` judges a path by the longest of their prefixes that it starts with, of equal ones by the last. By the format
the rules are those of every group that names `*`, wherever among its agents, and of equal ones an `Allow` wins.

`robots_verdict_iff`: on a text the two agree for every path exactly where the rules that are not heard and the order
of those that are make no difference (`Settled`).
-/
namespace Metalogos.Http

open Metalogos.Lib

/-- An `Allow` or a `Disallow`, and its prefix. -/
abbrev Rule := Bool × List Char

/-- The key and the value of a line, the comment cut off. -/
def keyValue (raw : List Char) : Option (List Char × List Char) :=
  let line := trim (raw.takeWhile (· ≠ '#'))
  if line.contains ':' then
    some ((trim (line.takeWhile (· ≠ ':'))).map Char.toLower, trim ((line.dropWhile (· ≠ ':')).drop 1))
  else none

structure RobotsParse where
  rules : List Rule
  inStarGroup : Bool
  sawStarGroup : Bool
  deriving DecidableEq, Repr

def robotsLine (st : RobotsParse) (raw : List Char) : RobotsParse :=
  match keyValue raw with
  | none => st
  | some (key, value) =>
    if key = "user-agent".toList then
      let st := if st.inStarGroup then { st with inStarGroup := false } else st
      if value = ['*'] ∧ st.sawStarGroup = false then { st with inStarGroup := true, sawStarGroup := true } else st
    else if (key = "allow".toList ∨ key = "disallow".toList) ∧ st.inStarGroup = true then
      if value = [] then st else { st with rules := st.rules ++ [(decide (key = "allow".toList), value)] }
    else st

/-- mirrors src/src/builtins/http.rs:1127-1167 -/
def parse (text : List Char) : List Rule := ((lines text).foldl robotsLine ⟨[], false, false⟩).rules

def better (path : List Char) (best : Option (Nat × Bool)) (r : Rule) : Option (Nat × Bool) :=
  if r.2.isPrefixOf path then
    match best with
    | some (blen, allow) => if blen > byteLen r.2 then some (blen, allow) else some (byteLen r.2, r.1)
    | none => some (byteLen r.2, r.1)
  else best

/-- mirrors src/src/builtins/http.rs:1169-1188 -/
def allows (rules : List Rule) (path : List Char) : Bool :=
  match rules.foldl (better path) none with
  | some (_, allow) => allow
  | none => true

/-! ## The groups -/

inductive Directive where
  | agent (name : List Char)
  | rule (r : Rule)
  deriving DecidableEq, Repr

/-- What a line says; a line with another key says nothing. -/
def directive (raw : List Char) : Option Directive :=
  match keyValue raw with
  | none => none
  | some (key, value) =>
    if key = "user-agent".toList then some (.agent value)
    else if key = "allow".toList ∨ key = "disallow".toList then some (.rule (decide (key = "allow".toList), value))
    else none

def directives (text : List Char) : List Directive := (lines text).filterMap directive

/-- The rule stands in a group that names `*`: agents one after another, and then rules up to it. -/
def Governs (ds : List Directive) (r : Rule) : Prop :=
  ∃ (before : List Directive) (agents : List (List Char)) (rules : List Rule) (after : List Directive),
    ds = before ++ (agents.map .agent ++ (rules.map .rule ++ .rule r :: after)) ∧ ['*'] ∈ agents ∧ r.2 ≠ []

/-- A prefix that a rule of these groups has. -/
def Named (ds : List Directive) (p : List Char) : Prop := ∃ allow, Governs ds (allow, p)

/-- The longest of some prefixes that a path starts with. -/
structure Longest (S : List Char → Prop) (path q : List Char) : Prop where
  mem : S q
  starts : q <+: path
  longest : ∀ p, S p → p <+: path → p.length ≤ q.length

/-- The longest prefix decides, and for it an `Allow` wins; no prefix allows. -/
def Verdict (ds : List Directive) (path : List Char) : Prop := ∀ q, Longest (Named ds) path q → Governs ds (true, q)

def nonEmptyRule : Directive → Option Rule
  | .rule r => if r.2 = [] then none else some r
  | .agent _ => none

def Directive.isRule : Directive → Bool
  | .rule _ => true
  | .agent _ => false

/-- The rules between the first line that names `*` and the next one that names an agent. -/
def heard (ds : List Directive) : List Rule :=
  ((ds.dropWhile (· ≠ .agent ['*'])).tail.takeWhile Directive.isRule).filterMap nonEmptyRule

/-- The last rule for a prefix is an `Allow`. -/
def lastFor (rules : List Rule) (p : List Char) : Option Bool := (rules.filter (·.2 = p)).getLast?.map Prod.fst

/-- Some rule has the prefix. -/
def Has (rules : List Rule) (p : List Char) : Prop := ∃ allow, (allow, p) ∈ rules

/-- What is not heard, and which of the rules that are comes last, make no difference. -/
structure Settled (ds : List Directive) : Prop where
  heard : ∀ q, Has (heard ds) q → (Governs ds (true, q) ↔ lastFor (heard ds) q = some true)
  missed : ∀ q, Named ds q → ¬ Has (Http.heard ds) q →
    (Governs ds (true, q) ↔ ∀ p, Longest (Has (Http.heard ds)) q p → lastFor (Http.heard ds) p = some true)

/-! ## What is kept -/

section kept

variable {ds : List Directive} {rules : List Rule} {r : Rule} {st : RobotsParse}

/-- What a line does by what it says. -/
def RobotsParse.take (st : RobotsParse) : Directive → RobotsParse
  | .agent name =>
    if name = ['*'] ∧ st.sawStarGroup = false then ⟨st.rules, true, true⟩ else ⟨st.rules, false, st.sawStarGroup⟩
  | .rule r =>
    if st.inStarGroup = true then ⟨st.rules ++ (nonEmptyRule (.rule r)).toList, true, st.sawStarGroup⟩ else st

theorem robotsLine_directive (st : RobotsParse) (raw : List Char) :
    robotsLine st raw = (match directive raw with | none => st | some d => st.take d) := by
  obtain ⟨rules, inStar, sawStar⟩ := st
  unfold robotsLine directive
  cases keyValue raw with
  | none => rfl
  | some kv =>
    obtain ⟨key, value⟩ := kv
    dsimp only
    by_cases hagent : key = "user-agent".toList
    · rw [if_pos hagent, if_pos hagent]
      cases inStar <;> rfl
    · rw [if_neg hagent, if_neg hagent]
      by_cases hrule : key = "allow".toList ∨ key = "disallow".toList
      · rw [if_pos hrule]
        cases inStar with
        | false => simp [RobotsParse.take]
        | true =>
          rw [if_pos ⟨hrule, rfl⟩]
          by_cases hvalue : value = [] <;> simp [RobotsParse.take, nonEmptyRule, hvalue]
      · rw [if_neg hrule, if_neg fun h => hrule h.1]

theorem fold_lines (raws : List (List Char)) :
    ∀ st, raws.foldl robotsLine st = (raws.filterMap directive).foldl RobotsParse.take st := by
  induction raws with
  | nil => exact fun _ => rfl
  | cons raw raws ih =>
    intro st
    rw [List.foldl_cons, robotsLine_directive, ih]
    cases hd : directive raw with
    | none => rw [List.filterMap_cons_none hd]
    | some d => rw [List.filterMap_cons_some hd, List.foldl_cons]

/-- Behind the group nothing is kept. -/
theorem fold_closed (ds : List Directive) :
    ∀ rules, (ds.foldl RobotsParse.take ⟨rules, false, true⟩).rules = rules := by
  induction ds with
  | nil => exact fun _ => rfl
  | cons d ds ih =>
    intro rules
    cases d with
    | agent name =>
      rw [List.foldl_cons, RobotsParse.take, if_neg fun h => Bool.noConfusion h.2]
      exact ih rules
    | rule r => exact ih rules

theorem fold_open (ds : List Directive) : ∀ rules, (ds.foldl RobotsParse.take ⟨rules, true, true⟩).rules =
    rules ++ (ds.takeWhile Directive.isRule).filterMap nonEmptyRule := by
  induction ds with
  | nil => exact fun rules => (List.append_nil rules).symm
  | cons d ds ih =>
    intro rules
    cases d with
    | agent name =>
      rw [List.foldl_cons, RobotsParse.take, if_neg fun h => Bool.noConfusion h.2, fold_closed]
      exact (List.append_nil rules).symm
    | rule r =>
      rw [List.foldl_cons, RobotsParse.take, if_pos rfl, ih, List.takeWhile_cons_of_pos rfl]
      cases hr : nonEmptyRule (.rule r) with
      | none => rw [List.filterMap_cons_none hr]; simp
      | some r' => rw [List.filterMap_cons_some hr]; simp

theorem fold_heard (ds : List Directive) : (ds.foldl RobotsParse.take ⟨[], false, false⟩).rules = heard ds := by
  induction ds with
  | nil => rfl
  | cons d ds ih =>
    rw [List.foldl_cons]
    unfold heard
    by_cases hstar : d = .agent ['*']
    · subst hstar
      rw [List.dropWhile_cons_of_neg (by simp), RobotsParse.take, if_pos ⟨rfl, rfl⟩, fold_open]
      rfl
    · rw [List.dropWhile_cons_of_pos (by simpa using hstar)]
      cases d with
      | agent name =>
        rw [RobotsParse.take, if_neg fun h => hstar (congrArg Directive.agent h.1)]
        exact ih
      | rule r => exact ih

theorem parse_heard (text : List Char) : parse text = heard (directives text) := by
  rw [parse, fold_lines]
  exact fold_heard _

theorem eq_map_of_isRule {ds : List Directive} (h : ∀ d ∈ ds, d.isRule = true) :
    ∃ rules : List Rule, ds = rules.map .rule := by
  induction ds with
  | nil => exact ⟨[], rfl⟩
  | cons d ds ih =>
    obtain ⟨rules, hrules⟩ := ih fun d hd => h d (List.mem_cons_of_mem _ hd)
    cases d with
    | agent name => cases h _ List.mem_cons_self
    | rule r => exact ⟨r :: rules, by rw [hrules]; rfl⟩

theorem nonEmptyRule_iff {d : Directive} : nonEmptyRule d = some r ↔ d = .rule r ∧ r.2 ≠ [] := by
  cases d with
  | agent name => simp [nonEmptyRule]
  | rule r' =>
    unfold nonEmptyRule
    dsimp only
    split_ifs with h
    · refine ⟨False.elim, fun hr => ?_⟩
      cases hr.1
      exact absurd h hr.2
    · refine ⟨fun hr => ?_, fun hr => ?_⟩
      · cases hr
        exact ⟨rfl, h⟩
      · cases hr.1
        rfl

/-- What is heard stands in a group that names `*`. -/
theorem governs_of_heard (h : r ∈ heard ds) : Governs ds r := by
  obtain ⟨d, hd, hr⟩ := List.mem_filterMap.1 h
  obtain ⟨rfl, hne⟩ := nonEmptyRule_iff.1 hr
  obtain ⟨front, back, hsplit⟩ := List.append_of_mem hd
  have hrules : ∀ d ∈ front, d.isRule = true := fun d hd =>
    List.all_eq_true.1 List.all_takeWhile d (by rw [hsplit]; exact List.mem_append_left _ hd)
  obtain ⟨rules, rfl⟩ := eq_map_of_isRule hrules
  have hstar : ∃ rest, ds.dropWhile (· ≠ .agent ['*']) = .agent ['*'] :: rest := by
    cases hdrop : ds.dropWhile (· ≠ .agent ['*']) with
    | nil =>
      rw [hdrop] at hd
      cases hd
    | cons d rest =>
      have hhead := List.head_dropWhile_not (fun d => decide (d ≠ Directive.agent ['*'])) (l := ds)
        (by rw [hdrop]; exact List.cons_ne_nil _ _)
      simp only [hdrop, List.head_cons, decide_eq_false_iff_not, ne_eq, not_not] at hhead
      exact ⟨rest, by rw [hhead]⟩
  obtain ⟨rest, hrest⟩ := hstar
  rw [hrest, List.tail_cons] at hsplit
  refine ⟨ds.takeWhile (· ≠ .agent ['*']), [['*']], rules, back ++ rest.dropWhile Directive.isRule, ?_,
    List.mem_cons_self, hne⟩
  calc ds = ds.takeWhile (· ≠ .agent ['*']) ++ ds.dropWhile (· ≠ .agent ['*']) := List.takeWhile_append_dropWhile.symm
    _ = ds.takeWhile (· ≠ .agent ['*']) ++ .agent ['*'] :: (rest.takeWhile Directive.isRule ++
          rest.dropWhile Directive.isRule) := by rw [hrest, List.takeWhile_append_dropWhile]
    _ = _ := by rw [hsplit]; simp

end kept

/-! ## The longest prefix -/

section longest

variable {S T : List Char → Prop} {path p q : List Char}

theorem exists_longest (path : List Char) (h : ∃ p, S p ∧ p <+: path) : ∃ q, Longest S path q := by
  induction path using List.reverseRecOn with
  | nil =>
    obtain ⟨p, hp, hstarts⟩ := h
    exact ⟨p, hp, hstarts, fun p' _ hp' => by rw [List.prefix_nil.1 hp']; exact Nat.zero_le _⟩
  | append_singleton path c ih =>
    by_cases hwhole : S (path ++ [c])
    · exact ⟨path ++ [c], hwhole, List.prefix_rfl, fun p _ hp => hp.length_le⟩
    · have hshort : ∀ p, S p → p <+: path ++ [c] → p <+: path := fun p hp hstarts =>
        (List.prefix_concat_iff.1 hstarts).resolve_left fun heq => hwhole (heq ▸ hp)
      obtain ⟨p, hp, hstarts⟩ := h
      obtain ⟨q, hq⟩ := ih ⟨p, hp, hshort p hp hstarts⟩
      exact ⟨q, hq.mem, hq.starts.trans (List.prefix_append _ _), fun p hp hstarts =>
        hq.longest p hp (hshort p hp hstarts)⟩

theorem Longest.unique (hp : Longest S path p) (hq : Longest S path q) : p = q :=
  (List.prefix_of_prefix_length_le hp.starts hq.starts (hq.longest p hp.mem hp.starts)).eq_of_length
    (Nat.le_antisymm (hq.longest p hp.mem hp.starts) (hp.longest q hq.mem hq.starts))

theorem Longest.self (hq : S q) : Longest S q q := ⟨hq, List.prefix_rfl, fun _ _ hp => hp.length_le⟩

/-- Fewer prefixes have no longer one. -/
theorem Longest.restrict (hTS : ∀ p, T p → S p) (hq : Longest S path q) : Longest T path p ↔ Longest T q p := by
  have hiff : ∀ p, T p → (p <+: path ↔ p <+: q) := fun p hp =>
    ⟨fun hstarts => List.prefix_of_prefix_length_le hstarts hq.starts (hq.longest p (hTS p hp) hstarts),
      fun hstarts => hstarts.trans hq.starts⟩
  exact ⟨fun h => ⟨h.mem, (hiff p h.mem).1 h.starts, fun p' hp' hs => h.longest p' hp' ((hiff p' hp').2 hs)⟩,
    fun h => ⟨h.mem, (hiff p h.mem).2 h.starts, fun p' hp' hs => h.longest p' hp' ((hiff p' hp').1 hs)⟩⟩

/-- Of two prefixes of one path the one of more bytes is of more characters. -/
theorem length_le_of_byteLen (hp : p <+: path) (hq : q <+: path) (h : byteLen p ≤ byteLen q) : p.length ≤ q.length := by
  rcases List.prefix_or_prefix_of_prefix hp hq with hpq | ⟨t, rfl⟩
  · exact hpq.length_le
  · rw [byteLen_append] at h
    have ht : t = [] := byteLen_eq_zero (by omega)
    rw [ht, List.append_nil]

end longest

/-! ## The judgement -/

section judgement

variable {rules : List Rule} {path q : List Char}

theorem lastFor_concat_self (rules : List Rule) (r : Rule) : lastFor (rules ++ [r]) r.2 = some r.1 := by
  simp [lastFor]

theorem lastFor_concat_ne {r : Rule} (h : r.2 ≠ q) : lastFor (rules ++ [r]) q = lastFor rules q := by
  simp [lastFor, h]

/-- The best match so far is of the longest prefix, by the last rule for it. -/
theorem best_spec (rules : List Rule) (path : List Char) : match rules.foldl (better path) none with
    | none => ∀ p, Has rules p → ¬ p <+: path
    | some (n, allow) => ∃ q, Longest (Has rules) path q ∧ byteLen q = n ∧ lastFor rules q = some allow := by
  induction rules using List.reverseRecOn with
  | nil =>
    rintro p ⟨_, hp⟩
    cases hp
  | append_singleton rules r ih =>
    have hhas : ∀ p, Has (rules ++ [r]) p ↔ Has rules p ∨ p = r.2 := fun p => by
      constructor
      · rintro ⟨allow, h⟩
        rcases List.mem_append.1 h with h | h
        · exact .inl ⟨allow, h⟩
        · exact .inr (congrArg Prod.snd (List.mem_singleton.1 h))
      · rintro (⟨allow, h⟩ | rfl)
        · exact ⟨allow, List.mem_append_left _ h⟩
        · exact ⟨r.1, List.mem_append_right _ List.mem_cons_self⟩
    rw [List.foldl_concat, better.eq_def]
    by_cases hstarts : r.2 <+: path
    · rw [if_pos (List.isPrefixOf_iff_prefix.2 hstarts)]
      cases hbest : rules.foldl (better path) none with
      | none =>
        rw [hbest] at ih
        refine ⟨r.2, ⟨(hhas _).2 (.inr rfl), hstarts, fun p hp hs => ?_⟩, rfl, lastFor_concat_self rules r⟩
        rcases (hhas p).1 hp with hp | rfl
        · exact absurd hs (ih p hp)
        · exact Nat.le_refl _
      | some best =>
        obtain ⟨n, allow⟩ := best
        rw [hbest] at ih
        obtain ⟨q, hq, rfl, hlast⟩ := ih
        dsimp only
        by_cases hlong : byteLen q > byteLen r.2
        · rw [if_pos hlong]
          refine ⟨q, ⟨(hhas q).2 (.inl hq.mem), hq.starts, fun p hp hs => ?_⟩, rfl, ?_⟩
          · rcases (hhas p).1 hp with hp | rfl
            · exact hq.longest p hp hs
            · exact length_le_of_byteLen hs hq.starts (Nat.le_of_lt hlong)
          · rw [lastFor_concat_ne fun heq => by rw [heq] at hlong; exact Nat.lt_irrefl _ hlong, hlast]
        · rw [if_neg hlong]
          refine ⟨r.2, ⟨(hhas _).2 (.inr rfl), hstarts, fun p hp hs => ?_⟩, rfl, lastFor_concat_self rules r⟩
          rcases (hhas p).1 hp with hp | rfl
          · exact Nat.le_trans (hq.longest p hp hs)
              (length_le_of_byteLen hq.starts hstarts (Nat.le_of_not_lt hlong))
          · exact Nat.le_refl _
    · rw [if_neg fun h => hstarts (List.isPrefixOf_iff_prefix.1 h)]
      have hsame : ∀ p, p <+: path → (Has (rules ++ [r]) p ↔ Has rules p) := fun p hs =>
        (hhas p).trans (or_iff_left fun heq => hstarts (heq ▸ hs))
      cases hbest : rules.foldl (better path) none with
      | none =>
        rw [hbest] at ih
        exact fun p hp hs => ih p ((hsame p hs).1 hp) hs
      | some best =>
        obtain ⟨n, allow⟩ := best
        rw [hbest] at ih
        obtain ⟨q, hq, hn, hlast⟩ := ih
        refine ⟨q, ⟨(hsame q hq.starts).2 hq.mem, hq.starts, fun p hp hs => hq.longest p ((hsame p hs).1 hp) hs⟩,
          hn, ?_⟩
        rw [lastFor_concat_ne fun heq => hstarts (heq ▸ hq.starts), hlast]

theorem allows_iff (rules : List Rule) (path : List Char) :
    allows rules path = true ↔ ∀ q, Longest (Has rules) path q → lastFor rules q = some true := by
  have hspec := best_spec rules path
  unfold allows
  cases hbest : rules.foldl (better path) none with
  | none =>
    rw [hbest] at hspec
    exact ⟨fun _ q hq => absurd hq.starts (hspec q hq.mem), fun _ => rfl⟩
  | some best =>
    obtain ⟨n, allow⟩ := best
    rw [hbest] at hspec
    obtain ⟨q, hq, _, hlast⟩ := hspec
    refine ⟨fun hallow p hp => ?_, fun h => ?_⟩
    · have htrue : allow = true := hallow
      rw [← hq.unique hp, hlast, htrue]
    · exact Option.some.inj (hlast.symm.trans (h q hq))

end judgement

section settled

variable {ds : List Directive} {q path : List Char}

theorem named_of_has (h : Has (heard ds) q) : Named ds q := by
  obtain ⟨allow, hmem⟩ := h
  exact ⟨allow, governs_of_heard hmem⟩

theorem verdict_of_longest (hq : Longest (Named ds) path q) : Verdict ds path ↔ Governs ds (true, q) :=
  ⟨fun h => h q hq, fun h _ hp => hq.unique hp ▸ h⟩

theorem judged_of_longest {rules : List Rule} (hq : Longest (Has rules) path q) :
    (∀ p, Longest (Has rules) path p → lastFor rules p = some true) ↔ lastFor rules q = some true :=
  ⟨fun h => h q hq, fun h _ hp => hq.unique hp ▸ h⟩

theorem settled_iff : (∀ path, allows (heard ds) path = true ↔ Verdict ds path) ↔ Settled ds := by
  refine ⟨fun h => ⟨fun q hq => ?_, fun q hq _ => ?_⟩, fun h path => ?_⟩
  · rw [← verdict_of_longest (Longest.self (named_of_has hq)), ← h q, allows_iff,
      judged_of_longest (Longest.self hq)]
  · rw [← verdict_of_longest (Longest.self hq), ← h q, allows_iff]
  · rw [allows_iff]
    by_cases hany : ∃ p, Named ds p ∧ p <+: path
    · obtain ⟨q, hq⟩ := exists_longest path hany
      rw [verdict_of_longest hq]
      simp only [hq.restrict fun p => named_of_has]
      by_cases hhas : Has (heard ds) q
      · rw [judged_of_longest (Longest.self hhas), h.heard q hhas]
      · exact (h.missed q hq.mem hhas).symm
    · exact ⟨fun _ q hq => absurd ⟨q, hq.mem, hq.starts⟩ hany,
        fun _ q hq => absurd ⟨q, named_of_has hq.mem, hq.starts⟩ hany⟩

end settled

/-- On a text every path is judged as the rules of all groups that name `*` judge it where the rules that are not heard
and the order of those that are make no difference. -/
theorem robots_verdict_iff (text : List Char) :
    (∀ path, allows (parse text) path = true ↔ Verdict (directives text) path) ↔ Settled (directives text) := by
  rw [parse_heard]
  exact settled_iff

/-- Of an `Allow` and a `Disallow` for one prefix the last decides. -/
theorem robots_tie : ¬ ∀ text path, allows (parse text) path = true ↔ Verdict (directives text) path := by
  intro h
  have hallow : Governs (directives "User-agent: *\nAllow: /a\nDisallow: /a\n".toList) (true, "/a".toList) :=
    ⟨[], [['*']], [], [.rule (false, "/a".toList)], by decide +kernel, List.mem_cons_self, by decide⟩
  have hverdict := (verdict_of_longest (Longest.self ⟨true, hallow⟩)).2 hallow
  exact absurd ((h _ _).2 hverdict) (by decide +kernel)

end Metalogos.Http
