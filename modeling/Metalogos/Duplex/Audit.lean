import Mathlib.Data.List.Induction
import Mathlib.Data.List.Nodup
import Mathlib.Logic.Function.Basic
import Metalogos.Duplex.Channel

/-!
# Duplex channels: slots and records

`Sound` is the invariant of the registry: a channel has at most one active stream, ranks are on the ladder,
and what ended has an outcome. `Audited` reads the journal: every stream that was started has one start
record, and one terminal record exactly when it is in no slot. The two hold in every run, over any
interleaving of the steps of starts, unless two identifiers made in the run have the same digest.
-/
namespace Metalogos.Duplex

open Metalogos.Lib

variable (D : String → String)

/-! ## The registry -/

structure DuplexChannel.Sound (c : DuplexChannel) : Prop where
  one : c.listen = none ∨ c.speak = none
  active : ∀ d s, c.slot d = some s → s.outcome = .active ∧ s.rank < priorities.length ∧ s.id ≠ ""
  ended : ∀ d s, c.last d = some s → s.outcome ≠ .active
  defaultRank : c.defaultRank < priorities.length

structure World.Sound (w : World) : Prop where
  channels : ∀ id c, w.registry.get id = some c → c.Sound
  pending : ∀ t p, w.pending t = some p → p.rank < priorities.length

theorem priorityRank_lt {word : String} {rank : Nat} (h : priorityRank word = some rank) :
    rank < priorities.length := by
  unfold priorityRank at h
  rw [List.idxOf?_eq_some_iff] at h
  exact h.1

theorem resolveRank_lt {c : DuplexChannel} {priority : Option String} {rank : Nat} {word : String}
    (hc : c.Sound) (h : resolveRank c priority = .ok (rank, word)) : rank < priorities.length := by
  cases priority with
  | none =>
    obtain ⟨rfl, -⟩ : c.defaultRank = rank ∧ _ := by simpa [resolveRank] using h
    exact hc.defaultRank
  | some w =>
    cases hr : priorityRank w with
    | none => simp [resolveRank, hr] at h
    | some r =>
      obtain ⟨rfl, -⟩ : r = rank ∧ w = word := by simpa [resolveRank, hr] using h
      exact priorityRank_lt hr

theorem id_ne_empty (m : Mint) : m.id D ≠ "" := by
  intro h
  have hlist := congrArg String.toList h
  simp [Mint.id] at hlist

namespace DuplexChannel.Sound

variable {c : DuplexChannel} {s : Stream} {d : Direction}

theorem occupy (h : c.Sound) (hopp : c.slot d.opposite = none) (hs : s.outcome = .active)
    (hrank : s.rank < priorities.length) (hid : s.id ≠ "") : (c.occupy s d).Sound where
  one := by
    cases d with
    | listen => exact .inr hopp
    | speak => exact .inl hopp
  active d' s' h' := by
    rw [slot_occupy] at h'
    split_ifs at h' with hd
    · obtain rfl : s = s' := Option.some.inj h'
      exact ⟨hs, hrank, hid⟩
    · exact h.active d' s' h'
  ended d' s' h' := by
    rw [last_occupy] at h'
    exact h.ended d' s' h'
  defaultRank := by
    rw [defaultRank_occupy]
    exact h.defaultRank

theorem vacate (h : c.Sound) (hs : s.outcome ≠ .active) : (c.vacate s d).Sound where
  one := by
    have hone := h.one
    cases d with
    | listen => exact .inl rfl
    | speak => exact .inr rfl
  active d' s' h' := by
    rw [slot_vacate] at h'
    split_ifs at h' with hd
    exact h.active d' s' h'
  ended d' s' h' := by
    rw [last_vacate] at h'
    split_ifs at h' with hd
    · obtain rfl : s = s' := Option.some.inj h'
      exact hs
    · exact h.ended d' s' h'
  defaultRank := by
    rw [defaultRank_vacate]
    exact h.defaultRank

end DuplexChannel.Sound

/-! ## What the audit sees -/

/-- The channels, the journal and the identifiers made so far. -/
structure Book where
  get : String → Option DuplexChannel
  journal : List DuplexEvent
  minted : List Mint

def World.book (w : World) : Book := ⟨w.registry.get, w.journal, w.minted⟩

namespace Book

def ids (b : Book) : List String := b.minted.map (·.id D)

/-- The streams that were ever started. -/
def streams (b : Book) : List String := (b.minted.filter (·.kind ≠ "dup")).map (·.id D)

def Holds (b : Book) (channel : String) (d : Direction) (x : String) : Prop :=
  ∃ c s, b.get channel = some c ∧ c.slot d = some s ∧ s.id = x

def InSlot (b : Book) (x : String) : Prop := ∃ channel d, b.Holds channel d x

/-- One start record for each stream, and one terminal record for each that is in no slot. -/
structure Audited (b : Book) : Prop where
  started : ∀ x, b.journal.countP (·.starts x) = if x ∈ b.streams D then 1 else 0
  running : ∀ x, b.InSlot x → b.journal.countP (·.ends x) = 0
  ended : ∀ x ∈ b.streams D, ¬ b.InSlot x → b.journal.countP (·.ends x) = 1
  unknown : ∀ x ∉ b.streams D, b.journal.countP (·.ends x) = 0
  slots : ∀ x, b.InSlot x → x ∈ b.streams D
  once : ∀ {channel channel' d d' x}, b.Holds channel d x → b.Holds channel' d' x → channel = channel' ∧ d = d'
  channels : ∀ channel c, b.get channel = some c → channel ∈ b.ids D

variable {D} {b : Book} {channel x : String} {c : DuplexChannel} {d : Direction} {s : Stream} {m : Mint}

theorem Audited.start : Audited D World.start.book where
  started _ := rfl
  running _ _ := rfl
  ended x hx := by cases hx
  unknown _ _ := rfl
  slots x := by
    rintro ⟨_, _, _, _, hget, -⟩
    cases hget
  once := by
    rintro _ _ _ _ _ ⟨_, _, hget, -⟩
    cases hget
  channels _ _ hget := by cases hget

/-- An event that is no record of a stream. -/
theorem Audited.note (h : b.Audited D) {e : DuplexEvent} (he : ∀ x, e.starts x = false ∧ e.ends x = false) :
    Audited D { b with journal := b.journal ++ [e] } where
  started x := by
    simp only [List.countP_append, List.countP_singleton, he x]
    exact h.started x
  running x hx := by
    simp only [List.countP_append, List.countP_singleton, he x]
    exact h.running x hx
  ended x hx hout := by
    simp only [List.countP_append, List.countP_singleton, he x]
    exact h.ended x hx hout
  unknown x hx := by
    simp only [List.countP_append, List.countP_singleton, he x]
    exact h.unknown x hx
  slots := h.slots
  once := h.once
  channels := h.channels

theorem streams_concat (b : Book) (m : Mint) : (⟨b.get, b.journal, b.minted ++ [m]⟩ : Book).streams D =
    b.streams D ++ if m.kind ≠ "dup" then [m.id D] else [] := by
  simp only [streams, List.filter_append, List.map_append]
  by_cases h : m.kind = "dup" <;> simp [h]

theorem mem_ids_of_streams (h : x ∈ b.streams D) : x ∈ b.ids D := by
  obtain ⟨m, hm, rfl⟩ := List.mem_map.1 h
  exact List.mem_map_of_mem (List.mem_filter.1 hm).1

theorem fresh_of_nodup (h : ((b.minted ++ [m]).map (·.id D)).Nodup) : m.id D ∉ b.ids D := by
  rw [List.map_append, List.map_singleton] at h
  exact fun hx => (List.nodup_append.1 h).2.2 _ hx _ (List.mem_singleton_self _) rfl

variable (D) in
/-- A channel is made. -/
def opens (b : Book) (m : Mint) (c : DuplexChannel) : Book :=
  ⟨Function.update b.get (m.id D) (some c), b.journal, b.minted ++ [m]⟩

/-- A stream takes a slot of the channel `c`, with the record `e`. -/
def occupies (b : Book) (channel : String) (c : DuplexChannel) (s : Stream) (d : Direction) (e : DuplexEvent)
    (m : Mint) : Book :=
  ⟨Function.update b.get channel (some (c.occupy s d)), b.journal ++ [e], b.minted ++ [m]⟩

/-- A slot of the channel `c` is emptied, with the record `e`. -/
def vacates (b : Book) (channel : String) (c : DuplexChannel) (t : Stream) (d : Direction) (e : DuplexEvent) : Book :=
  ⟨Function.update b.get channel (some (c.vacate t d)), b.journal ++ [e], b.minted⟩

theorem streams_opens (hkind : m.kind = "dup") : (b.opens D m c).streams D = b.streams D := by
  have hconcat := streams_concat (D := D) b m
  rw [if_neg (by simp [hkind]), List.append_nil] at hconcat
  exact hconcat

theorem holds_opens (h : b.Audited D) (hfresh : m.id D ∉ b.ids D) (hc : ∀ d, c.slot d = none) (channel : String)
    (d : Direction) (x : String) : (b.opens D m c).Holds channel d x ↔ b.Holds channel d x := by
  unfold Holds opens
  by_cases hch : channel = m.id D
  · subst hch
    constructor
    · rintro ⟨c', s, hget, hs, -⟩
      obtain rfl : c = c' := by simpa using hget
      rw [hc] at hs
      cases hs
    · rintro ⟨c', s, hget, -⟩
      exact absurd (h.channels _ _ hget) hfresh
  · simp [hch]

/-- A new channel has no streams. -/
theorem Audited.opened (h : b.Audited D) (hkind : m.kind = "dup") (hfresh : m.id D ∉ b.ids D)
    (hc : ∀ d, c.slot d = none) : Audited D (b.opens D m c) := by
  have hstreams : (b.opens D m c).streams D = b.streams D := streams_opens hkind
  have hholds := holds_opens h hfresh hc
  have hin (x : String) : (b.opens D m c).InSlot x ↔ b.InSlot x := by
    simp only [InSlot, hholds]
  refine ⟨fun x => ?_, fun x => ?_, fun x => ?_, fun x => ?_, fun x => ?_, ?_, fun channel c' hget => ?_⟩
  · rw [hstreams]
    exact h.started x
  · rw [hin]
    exact h.running x
  · rw [hin, hstreams]
    exact h.ended x
  · rw [hstreams]
    exact h.unknown x
  · rw [hin, hstreams]
    exact h.slots x
  · intro _ _ _ _ _ h₁ h₂
    rw [hholds] at h₁ h₂
    exact h.once h₁ h₂
  · rw [ids, opens, List.map_append, List.mem_append]
    by_cases hch : channel = m.id D
    · exact .inr (by simp [hch])
    · exact .inl (h.channels channel c' (by simpa [opens, hch] using hget))

section Occupied

variable {e : DuplexEvent}

theorem mem_streams_occupies (hkind : m.kind ≠ "dup") (hid : s.id = m.id D) (x : String) :
    x ∈ (b.occupies channel c s d e m).streams D ↔ x ∈ b.streams D ∨ x = s.id := by
  have hconcat : (b.occupies channel c s d e m).streams D = _ := streams_concat (D := D) b m
  rw [hconcat, if_pos hkind, List.mem_append, List.mem_singleton, hid]

theorem holds_occupies (hget : b.get channel = some c) (hempty : c.slot d = none) (channel' : String)
    (d' : Direction) (x : String) : (b.occupies channel c s d e m).Holds channel' d' x ↔
      b.Holds channel' d' x ∨ channel' = channel ∧ d' = d ∧ x = s.id := by
  unfold Holds occupies
  by_cases hch : channel' = channel
  · subst hch
    by_cases hd : d' = d
    · subst hd
      simp [hget, hempty, DuplexChannel.slot_occupy, eq_comm]
    · simp [hget, hd, DuplexChannel.slot_occupy]
  · simp [hch]

theorem inSlot_occupies (hget : b.get channel = some c) (hempty : c.slot d = none) (x : String) :
    (b.occupies channel c s d e m).InSlot x ↔ b.InSlot x ∨ x = s.id := by
  simp only [InSlot, holds_occupies hget hempty]
  constructor
  · rintro ⟨ch, d', hold | ⟨-, -, rfl⟩⟩
    · exact .inl ⟨ch, d', hold⟩
    · exact .inr rfl
  · rintro (⟨ch, d', hold⟩ | rfl)
    · exact ⟨ch, d', .inl hold⟩
    · exact ⟨channel, d, .inr ⟨rfl, rfl, rfl⟩⟩

/-- A new stream takes an empty slot. -/
theorem Audited.occupied (h : b.Audited D) (hget : b.get channel = some c) (hempty : c.slot d = none)
    (hkind : m.kind ≠ "dup") (hfresh : m.id D ∉ b.ids D) (hid : s.id = m.id D)
    (hstarts : ∀ x, e.starts x = decide (s.id = x)) (hends : ∀ x, e.ends x = false) :
    Audited D (b.occupies channel c s d e m) := by
  have hnew : s.id ∉ b.streams D := fun hx => hfresh (hid ▸ mem_ids_of_streams hx)
  have hout : ¬ b.InSlot s.id := fun hx => hnew (h.slots _ hx)
  have hstreams (x : String) : x ∈ (b.occupies channel c s d e m).streams D ↔ x ∈ b.streams D ∨ x = s.id :=
    mem_streams_occupies hkind hid x
  have hholds := holds_occupies (s := s) (e := e) (m := m) hget hempty
  have hin := inSlot_occupies (s := s) (e := e) (m := m) hget hempty
  have hcount (x : String) : (b.journal ++ [e]).countP (·.ends x) = b.journal.countP (·.ends x) := by
    simp [List.countP_append, hends]
  refine ⟨fun x => ?_, fun x => ?_, fun x => ?_, fun x => ?_, fun x => ?_, ?_, fun channel' c' hget' => ?_⟩
  · simp only [hstreams]
    simp only [occupies, List.countP_append, List.countP_singleton, hstarts, decide_eq_true_eq, h.started x]
    by_cases hx : x = s.id
    · subst hx
      simp [hnew]
    · simp [hx, Ne.symm hx]
  · rw [hin, occupies, hcount]
    rintro (hx | rfl)
    · exact h.running x hx
    · exact h.unknown _ hnew
  · rw [hin, hstreams, occupies, hcount, not_or]
    rintro (hx | rfl) ⟨hout', hne⟩
    · exact h.ended x hx hout'
    · exact absurd rfl hne
  · rw [hstreams, occupies, hcount, not_or]
    exact fun hx => h.unknown x hx.1
  · rw [hin, hstreams]
    exact Or.imp_left (h.slots x)
  · intro _ _ _ _ _ h₁ h₂
    rw [hholds] at h₁ h₂
    rcases h₁ with h₁ | ⟨rfl, rfl, rfl⟩
    · rcases h₂ with h₂ | ⟨rfl, rfl, rfl⟩
      · exact h.once h₁ h₂
      · exact absurd ⟨_, _, h₁⟩ hout
    · rcases h₂ with h₂ | ⟨rfl, rfl, -⟩
      · exact absurd ⟨_, _, h₂⟩ hout
      · exact ⟨rfl, rfl⟩
  · rw [ids, occupies, List.map_append, List.mem_append]
    by_cases hch : channel' = channel
    · exact .inl (hch ▸ h.channels channel c hget)
    · exact .inl (h.channels channel' c' (by simpa [occupies, hch] using hget'))

end Occupied

section Vacated

variable {t : Stream} {e : DuplexEvent}

theorem holds_vacates (hget : b.get channel = some c) (channel' : String) (d' : Direction) (x : String) :
    (b.vacates channel c t d e).Holds channel' d' x ↔ b.Holds channel' d' x ∧ ¬ (channel' = channel ∧ d' = d) := by
  unfold Holds vacates
  by_cases hch : channel' = channel
  · subst hch
    by_cases hd : d' = d
    · subst hd
      simp [DuplexChannel.slot_vacate]
    · simp [hget, hd, DuplexChannel.slot_vacate]
  · simp [hch]

theorem inSlot_vacates (h : b.Audited D) (hget : b.get channel = some c) (hslot : c.slot d = some s) (x : String) :
    (b.vacates channel c t d e).InSlot x ↔ b.InSlot x ∧ x ≠ s.id := by
  simp only [InSlot, holds_vacates hget]
  constructor
  · rintro ⟨ch, d', hold, hne⟩
    refine ⟨⟨ch, d', hold⟩, ?_⟩
    rintro rfl
    exact hne (h.once hold ⟨c, s, hget, hslot, rfl⟩)
  · rintro ⟨⟨ch, d', hold⟩, hne⟩
    refine ⟨ch, d', hold, ?_⟩
    rintro ⟨rfl, rfl⟩
    obtain ⟨c', s₁, hget', hs₁, rfl⟩ := hold
    obtain rfl : c = c' := Option.some.inj (hget.symm.trans hget')
    obtain rfl : s = s₁ := Option.some.inj (hslot.symm.trans hs₁)
    exact hne rfl

/-- A stream leaves its slot, with a terminal record. -/
theorem Audited.vacated (h : b.Audited D) (hget : b.get channel = some c) (hslot : c.slot d = some s)
    (hstarts : ∀ x, e.starts x = false) (hends : ∀ x, e.ends x = decide (s.id = x)) :
    Audited D (b.vacates channel c t d e) := by
  have hself : b.InSlot s.id := ⟨channel, d, c, s, hget, hslot, rfl⟩
  have hstarted := h.slots s.id hself
  have hholds := holds_vacates (d := d) (t := t) (e := e) hget
  have hin := inSlot_vacates (t := t) (e := e) h hget hslot
  have hcount (x : String) : (b.journal ++ [e]).countP (·.ends x) =
      b.journal.countP (·.ends x) + if s.id = x then 1 else 0 := by
    simp [List.countP_append, hends]
  refine ⟨fun x => ?_, fun x => ?_, fun x => ?_, fun x => ?_, fun x => ?_, ?_, fun channel' c' hget' => ?_⟩
  · simp only [vacates, List.countP_append, List.countP_singleton, hstarts]
    exact h.started x
  · rw [hin, vacates, hcount]
    rintro ⟨hx, hne⟩
    rw [h.running x hx, if_neg (Ne.symm hne)]
  · intro hx hout
    rw [hin, not_and_or, not_not] at hout
    rw [vacates, hcount]
    by_cases hxs : x = s.id
    · subst hxs
      rw [h.running _ hself, if_pos rfl]
    · rw [h.ended x hx (hout.resolve_right hxs), if_neg (Ne.symm hxs)]
  · intro hx
    have hne : s.id ≠ x := fun he => hx (he ▸ hstarted)
    rw [vacates, hcount, h.unknown x hx, if_neg hne]
  · rw [hin]
    exact fun hx => h.slots x hx.1
  · intro _ _ _ _ _ h₁ h₂
    rw [hholds] at h₁ h₂
    exact h.once h₁.1 h₂.1
  · by_cases hch : channel' = channel
    · exact hch ▸ h.channels channel c hget
    · exact h.channels channel' c' (by simpa [vacates, hch] using hget')

end Vacated

end Book

/-! ## Steps -/

/-- The identifier of the stream that a start makes. -/
def Pending.mint (p : Pending) (millis seq : Nat) : Mint := ⟨p.direction.word, p.channel, millis, seq⟩

def Pending.stream (p : Pending) (millis seq : Nat) : Stream :=
  ⟨(p.mint millis seq).id D, p.direction, p.rank, p.word, .active⟩

/-- What the second lock of a start can do. -/
inductive World.Engages (w : World) (p : Pending) (millis : Nat) : World → Prop where
  | refused : Engages w p millis w
  | plain (c : DuplexChannel) (hget : w.registry.get p.channel = some c) (hempty : c.slot p.direction = none)
      (hopp : (c.slot p.direction.opposite).all (·.id = "")) :
      Engages w p millis ⟨w.registry.set p.channel (c.occupy (p.stream D millis w.seq) p.direction), w.seq + 1,
        w.journal ++ [.start c.id (p.stream D millis w.seq).id p.direction p.word false],
        w.minted ++ [p.mint millis w.seq], w.pending⟩
  | bargeIn (c : DuplexChannel) (active : Stream) (hget : w.registry.get p.channel = some c)
      (hempty : c.slot p.direction = none) (hopp : c.slot p.direction.opposite = some active)
      (hrank : active.rank ≤ p.rank) :
      Engages w p millis ⟨w.registry.set p.channel
          ((c.vacate { active with outcome := .interruptedBy (p.stream D millis w.seq).id p.rank }
            p.direction.opposite).occupy (p.stream D millis w.seq) p.direction), w.seq + 1,
        w.journal ++ [.preempt c.id (p.stream D millis w.seq).id p.direction p.rank active.id active.rank,
          .interrupted c.id active.id active.direction (p.stream D millis w.seq).id p.rank,
          .start c.id (p.stream D millis w.seq).id p.direction p.word true],
        w.minted ++ [p.mint millis w.seq], w.pending⟩

variable {D}

theorem engage_cases (w : World) (p : Pending) (millis : Nat) :
    w.Engages D p millis (w.engage D p millis).2 := by
  unfold World.engage
  cases hget : w.registry.get p.channel with
  | none => exact .refused
  | some c =>
    cases hslot : c.slot p.direction with
    | some s => simpa [hslot] using .refused
    | none =>
      cases hopp : c.slot p.direction.opposite with
      | none =>
        have hplain : w.Engages D p millis _ := .plain c hget hslot (by simp [hopp])
        simpa [hslot, hopp, World.mint, World.emit, Pending.stream, Pending.mint] using hplain
      | some active =>
        by_cases hid : active.id = ""
        · have hplain : w.Engages D p millis _ := .plain c hget hslot (by simp [hopp, hid])
          simpa [hslot, hopp, hid, World.mint, World.emit, Pending.stream, Pending.mint] using hplain
        · by_cases hrank : p.rank < active.rank
          · simpa [hslot, hopp, hid, hrank] using .refused
          · have hbarge : w.Engages D p millis _ := .bargeIn c active hget hslot hopp (Nat.not_lt.1 hrank)
            simpa [hslot, hopp, hid, hrank, World.mint, World.emit, Pending.stream, Pending.mint] using hbarge

/-- What opening a channel can do. -/
theorem openChannel_cases (w : World) (session : String) (live : Bool) (priority : String) (millis : Nat) :
    (w.openChannel D session live priority millis).2 = w ∨
    ∃ rank < priorities.length, ∃ m : Mint, m = ⟨"dup", session, millis, w.seq⟩ ∧
      (w.openChannel D session live priority millis).2 =
        ⟨w.registry.set (m.id D) ⟨m.id D, session, rank, none, none, none, none⟩, w.seq + 1,
          w.journal ++ [.opened (m.id D) session priority], w.minted ++ [m], w.pending⟩ := by
  unfold World.openChannel
  cases hrank : priorityRank priority with
  | none => exact .inl rfl
  | some rank =>
    cases live with
    | false => exact .inl rfl
    | true => exact .inr ⟨rank, priorityRank_lt hrank, _, rfl, rfl⟩

/-- What stopping a stream can do. -/
theorem stop_cases (w : World) (direction : Direction) (channel : String) :
    (w.stop direction channel).2 = w ∨
    ∃ c s, w.registry.get channel = some c ∧ c.slot direction = some s ∧
      (w.stop direction channel).2 =
        ⟨w.registry.set channel (c.vacate { s with outcome := .completed } direction), w.seq,
          w.journal ++ [.stop c.id s.id s.direction], w.minted, w.pending⟩ := by
  unfold World.stop
  cases hget : w.registry.get channel with
  | none => exact .inl rfl
  | some c =>
    cases hslot : c.slot direction with
    | none => exact .inl (by simp [hslot])
    | some s => exact .inr ⟨c, s, rfl, hslot, by simp [hslot, World.emit]⟩

/-- What the first lock of a start can do. -/
theorem resolve_cases (w : World) (direction : Direction) (channel : String) (priority : Option String)
    (consented : Bool) :
    ((w.resolve direction channel priority consented).2 = w ∨
      (w.resolve direction channel priority consented).2 = w.emit [.denied channel direction]) ∧
    ∀ p, (w.resolve direction channel priority consented).1 = .ok p →
      ∃ c, w.registry.get channel = some c ∧ resolveRank c priority = .ok (p.rank, p.word) := by
  unfold World.resolve
  cases consented with
  | false => exact ⟨.inr rfl, nofun⟩
  | true =>
    cases hget : w.registry.get channel with
    | none => exact ⟨.inl rfl, nofun⟩
    | some c =>
      cases hrank : resolveRank c priority with
      | error e =>
        refine ⟨.inl (by simp [hrank]), fun p hp => ?_⟩
        simp [hrank] at hp
      | ok r =>
        refine ⟨.inl (by simp [hrank]), fun p hp => ?_⟩
        simp only [Bool.not_true, Bool.false_eq_true, if_false, hrank, Except.ok.injEq] at hp
        subst hp
        exact ⟨c, rfl, hrank⟩

theorem World.Sound.set {w : World} {channel : String} {c : DuplexChannel} {seq : Nat}
    {journal : List DuplexEvent} {minted : List Mint} (h : w.Sound) (hc : c.Sound) :
    World.Sound ⟨w.registry.set channel c, seq, journal, minted, w.pending⟩ := by
  refine ⟨fun id c' hget => ?_, h.pending⟩
  rw [Dict.get_set] at hget
  split_ifs at hget with hid
  · obtain rfl : c = c' := Option.some.inj hget
    exact hc
  · exact h.channels id c' hget

theorem World.Sound.engage {w w' : World} {p : Pending} {millis : Nat} (h : w.Sound)
    (hp : p.rank < priorities.length) (hw : w.Engages D p millis w') : w'.Sound := by
  cases hw with
  | refused => exact h
  | plain c hget hempty hopp =>
    have hc := h.channels _ c hget
    refine h.set (hc.occupy ?_ rfl hp (id_ne_empty D _))
    cases hs : c.slot p.direction.opposite with
    | none => rfl
    | some s =>
      rw [hs] at hopp
      exact absurd (by simpa using hopp) (hc.active _ s hs).2.2
  | bargeIn c active hget hempty hopp hrank =>
    have hc := h.channels _ c hget
    refine h.set ((hc.vacate (by simp)).occupy ?_ rfl hp (id_ne_empty D _))
    rw [DuplexChannel.slot_vacate, if_pos rfl]

/-- What a thread takes away from its first lock is on the ladder. -/
theorem World.Sound.resolve {w : World} (h : w.Sound) (direction : Direction) (channel : String)
    (priority : Option String) (consented : Bool) :
    (w.resolve direction channel priority consented).2.Sound ∧
      ∀ p, (w.resolve direction channel priority consented).1 = .ok p → p.rank < priorities.length := by
  obtain ⟨hw, hok⟩ := resolve_cases w direction channel priority consented
  refine ⟨?_, fun p hp => ?_⟩
  · obtain hw | hw := hw
    · rw [hw]
      exact h
    · rw [hw]
      exact ⟨h.channels, h.pending⟩
  · obtain ⟨c, hget, hrank⟩ := hok p hp
    exact resolveRank_lt (h.channels channel c hget) hrank

theorem World.Sound.step {w : World} (h : w.Sound) (op : Op) : (w.step D op).Sound := by
  cases op with
  | «open» session live priority millis =>
    rw [World.step]
    obtain hw | ⟨rank, hrank, m, -, hw⟩ := openChannel_cases (D := D) w session live priority millis
    · rw [hw]
      exact h
    · rw [hw]
      refine h.set ⟨.inl rfl, fun d s hs => ?_, fun d s hs => ?_, hrank⟩
      · cases d <;> cases hs
      · cases d <;> cases hs
  | resolve thread direction channel priority consented =>
    obtain ⟨hsound, hrank⟩ := h.resolve direction channel priority consented
    refine ⟨hsound.channels, fun t p hp => ?_⟩
    simp only [World.step] at hp
    split_ifs at hp with ht
    · cases hr : (w.resolve direction channel priority consented).1 with
      | error e =>
        rw [hr] at hp
        cases hp
      | ok q =>
        rw [hr] at hp
        exact hrank p (hr.trans (congrArg Except.ok (Option.some.inj hp)))
    · exact hsound.pending t p hp
  | engage thread millis =>
    rw [World.step]
    cases hp : w.pending thread with
    | none => exact h
    | some p =>
      have hsound := h.engage (h.pending thread p hp) (engage_cases (D := D) w p millis)
      refine ⟨hsound.channels, fun t q hq => ?_⟩
      simp only at hq
      split_ifs at hq with ht
      exact hsound.pending t q hq
  | stop direction channel =>
    rw [World.step]
    obtain hw | ⟨c, s, hget, hslot, hw⟩ := stop_cases w direction channel
    · rw [hw]
      exact h
    · rw [hw]
      exact h.set ((h.channels channel c hget).vacate nofun)

theorem get_set_eq (r : Dict String DuplexChannel) (channel : String) (c : DuplexChannel) :
    (r.set channel c).get = Function.update r.get channel (some c) := by
  funext id
  rw [Dict.get_set, Function.update_apply]

open Book in
theorem Book.Audited.engage {w w' : World} {p : Pending} {millis : Nat} (h : w.book.Audited D)
    (hw : w.Engages D p millis w') (hnodup : (w'.book.ids D).Nodup) : w'.book.Audited D := by
  have hkind : (p.mint millis w.seq).kind ≠ "dup" := by
    simp only [Pending.mint]
    cases p.direction <;> decide
  cases hw with
  | refused => exact h
  | plain c hget hempty hopp =>
    have hnew := h.occupied (s := p.stream D millis w.seq) hget hempty hkind (fresh_of_nodup hnodup) rfl
      (e := .start c.id (p.stream D millis w.seq).id p.direction p.word false) (fun _ => rfl) (fun _ => rfl)
    simpa only [World.book, occupies, get_set_eq] using hnew
  | bargeIn c active hget hempty hopp hrank =>
    have hnote := h.note (e := .preempt c.id (p.stream D millis w.seq).id p.direction p.rank active.id
      active.rank) fun _ => ⟨rfl, rfl⟩
    have hout := hnote.vacated hget hopp
      (t := { active with outcome := .interruptedBy (p.stream D millis w.seq).id p.rank })
      (e := .interrupted c.id active.id active.direction (p.stream D millis w.seq).id p.rank)
      (fun _ => rfl) (fun _ => rfl)
    have hempty' : (c.vacate { active with outcome := .interruptedBy (p.stream D millis w.seq).id p.rank }
        p.direction.opposite).slot p.direction = none := by
      rw [DuplexChannel.slot_vacate]
      split_ifs
      · rfl
      · exact hempty
    have hnew := hout.occupied (s := p.stream D millis w.seq) (Function.update_self _ _ _) hempty' hkind
      (fresh_of_nodup hnodup) rfl (e := .start c.id (p.stream D millis w.seq).id p.direction p.word true)
      (fun _ => rfl) (fun _ => rfl)
    simpa only [World.book, occupies, vacates, get_set_eq, Function.update_idem, List.append_assoc, List.cons_append,
      List.nil_append] using hnew

open Book in
theorem Book.Audited.step {w : World} (h : w.book.Audited D) (op : Op)
    (hnodup : ((w.step D op).book.ids D).Nodup) : (w.step D op).book.Audited D := by
  cases op with
  | «open» session live priority millis =>
    rw [World.step] at hnodup ⊢
    obtain hw | ⟨rank, -, m, rfl, hw⟩ := openChannel_cases (D := D) w session live priority millis
    · rw [hw]
      exact h
    · rw [hw] at hnodup ⊢
      have hnew := (h.note (e := .opened ((⟨"dup", session, millis, w.seq⟩ : Mint).id D) session priority)
        fun _ => ⟨rfl, rfl⟩).opened (m := ⟨"dup", session, millis, w.seq⟩) rfl (fresh_of_nodup hnodup)
        (c := ⟨(⟨"dup", session, millis, w.seq⟩ : Mint).id D, session, rank, none, none, none, none⟩)
        fun d => by cases d <;> rfl
      simpa only [World.book, opens, get_set_eq] using hnew
  | resolve thread direction channel priority consented =>
    obtain ⟨hw | hw, -⟩ := resolve_cases w direction channel priority consented
    · simp only [World.step, hw]
      exact h
    · simp only [World.step, hw]
      exact h.note fun _ => ⟨rfl, rfl⟩
  | engage thread millis =>
    rw [World.step] at hnodup ⊢
    cases hp : w.pending thread with
    | none => exact h
    | some p =>
      rw [hp] at hnodup
      have hnew : (w.engage D p millis).2.book.Audited D := h.engage (engage_cases w p millis) hnodup
      exact hnew
  | stop direction channel =>
    rw [World.step]
    obtain hw | ⟨c, s, hget, hslot, hw⟩ := stop_cases w direction channel
    · rw [hw]
      exact h
    · rw [hw]
      have hout := h.vacated hget hslot (t := { s with outcome := .completed })
        (e := .stop c.id s.id s.direction) (fun _ => rfl) (fun _ => rfl)
      simpa only [World.book, vacates, get_set_eq] using hout

/-! ## Identifiers -/

/-- What was made has increasing numbers below the counter, and is a channel or a stream. -/
structure World.Numbered (w : World) : Prop where
  sorted : w.minted.Pairwise (·.seq < ·.seq)
  below : ∀ m ∈ w.minted, m.seq < w.seq ∧ m.kind ∈ ["dup", "listen", "speak"]

theorem World.Numbered.concat {w : World} (h : w.Numbered) {r : Dict String DuplexChannel}
    {es : List DuplexEvent} {pending : Nat → Option Pending} {m : Mint} (hm : m.seq = w.seq)
    (hkind : m.kind ∈ ["dup", "listen", "speak"]) :
    World.Numbered ⟨r, w.seq + 1, es, w.minted ++ [m], pending⟩ := by
  refine ⟨List.pairwise_append.2 ⟨h.sorted, List.pairwise_singleton _ _, fun a ha b hb => ?_⟩, fun a ha => ?_⟩
  · obtain rfl : b = m := by simpa using hb
    have := (h.below a ha).1
    omega
  · rcases List.mem_append.1 ha with ha | ha
    · exact ⟨Nat.lt_succ_of_lt (h.below a ha).1, (h.below a ha).2⟩
    · obtain rfl : a = m := by simpa using ha
      exact ⟨by simp only; omega, hkind⟩

/-- Every step makes one identifier or none. -/
theorem step_minted (w : World) (op : Op) :
    ((w.step D op).minted = w.minted ∧ (w.step D op).seq = w.seq) ∨
    ∃ m : Mint, m.seq = w.seq ∧ m.kind ∈ ["dup", "listen", "speak"] ∧
      (w.step D op).minted = w.minted ++ [m] ∧ (w.step D op).seq = w.seq + 1 := by
  cases op with
  | «open» session live priority millis =>
    rw [World.step]
    obtain hw | ⟨rank, -, m, rfl, hw⟩ := openChannel_cases (D := D) w session live priority millis
    · rw [hw]
      exact .inl ⟨rfl, rfl⟩
    · rw [hw]
      exact .inr ⟨_, rfl, by simp, rfl, rfl⟩
  | resolve thread direction channel priority consented =>
    obtain ⟨hw | hw, -⟩ := resolve_cases w direction channel priority consented
    · exact .inl (by simp [World.step, hw])
    · exact .inl (by simp [World.step, hw, World.emit])
  | engage thread millis =>
    rw [World.step]
    cases hp : w.pending thread with
    | none => exact .inl ⟨rfl, rfl⟩
    | some p =>
      have hw := engage_cases (D := D) w p millis
      have hkind : (p.mint millis w.seq).kind ∈ ["dup", "listen", "speak"] := by
        simp only [Pending.mint]
        cases p.direction <;> decide
      simp only
      generalize (w.engage D p millis).2 = w' at hw
      cases hw with
      | refused => exact .inl ⟨rfl, rfl⟩
      | plain => exact .inr ⟨_, rfl, hkind, rfl, rfl⟩
      | bargeIn => exact .inr ⟨_, rfl, hkind, rfl, rfl⟩
  | stop direction channel =>
    rw [World.step]
    obtain hw | ⟨c, s, -, -, hw⟩ := stop_cases w direction channel
    · rw [hw]
      exact .inl ⟨rfl, rfl⟩
    · rw [hw]
      exact .inl ⟨rfl, rfl⟩

theorem run_concat (w : World) (ops : List Op) (op : Op) :
    w.run D (ops ++ [op]) = (w.run D ops).step D op := by
  simp [World.run]

theorem numbered_run (ops : List Op) : (World.start.run D ops).Numbered := by
  induction ops using List.reverseRecOn with
  | nil => exact ⟨.nil, fun m hm => by cases hm⟩
  | append_singleton ops op ih =>
    rw [run_concat]
    obtain ⟨hminted, hseq⟩ | ⟨m, hm, hkind, hminted, hseq⟩ := step_minted (D := D) (World.start.run D ops) op
    · refine ⟨by rw [hminted]; exact ih.sorted, ?_⟩
      rw [hminted, hseq]
      exact ih.below
    · have hnew : World.Numbered ⟨.empty, (World.start.run D ops).seq + 1, [],
          (World.start.run D ops).minted ++ [m], fun _ => none⟩ := ih.concat hm hkind
      refine ⟨by rw [hminted]; exact hnew.sorted, ?_⟩
      rw [hminted, hseq]
      exact hnew.below

theorem sound_run (ops : List Op) : (World.start.run D ops).Sound := by
  induction ops using List.reverseRecOn with
  | nil => exact ⟨fun _ _ h => (by cases h), fun _ _ h => (by cases h)⟩
  | append_singleton ops op ih =>
    rw [run_concat]
    exact ih.step op

theorem audited_run (ops : List Op) (h : ((World.start.run D ops).book.ids D).Nodup) :
    (World.start.run D ops).book.Audited D := by
  induction ops using List.reverseRecOn with
  | nil => exact Book.Audited.start
  | append_singleton ops op ih =>
    rw [run_concat] at h ⊢
    have hbefore : ((World.start.run D ops).book.ids D).Nodup := by
      obtain ⟨hminted, -⟩ | ⟨m, -, -, hminted, -⟩ := step_minted (D := D) (World.start.run D ops) op
      · simpa only [Book.ids, World.book, hminted] using h
      · simp only [Book.ids, World.book, hminted, List.map_append] at h
        exact (List.nodup_append.1 h).1
    exact (ih hbefore).step op h

/-- Text after the last bar. -/
theorem last_bar {a a' b b' : List Char} (hb : '|' ∉ b) (hb' : '|' ∉ b') (h : a ++ '|' :: b = a' ++ '|' :: b') :
    a = a' ∧ b = b' := by
  have hone {a a' b b' as : List Char} (hb : '|' ∉ b) (ha : a' = a ++ as) (hrest : '|' :: b = as ++ '|' :: b') :
      a = a' ∧ b = b' := by
    cases as with
    | nil => exact ⟨by simpa using ha.symm, by simpa using hrest⟩
    | cons c as =>
      obtain ⟨-, rfl⟩ := List.cons_eq_cons.1 hrest
      exact absurd (by simp) hb
  obtain ⟨as, ha, hrest⟩ | ⟨as, ha, hrest⟩ := List.append_eq_append_iff.1 h
  · exact hone hb ha hrest
  · obtain ⟨hae, hbe⟩ := hone hb' ha hrest
    exact ⟨hae.symm, hbe.symm⟩

theorem bar_notMem_digits (n : Nat) : '|' ∉ Nat.toDigits 10 n := by
  intro h
  have hd := Nat.isDigit_of_mem_toDigits (by decide) (by decide) h
  exact absurd hd (by decide)

/-- The number of an identifier can be read off what it is made of. -/
theorem seq_of_preimage {m m' : Mint} (hm : m.kind ∈ ["dup", "listen", "speak"])
    (hm' : m'.kind ∈ ["dup", "listen", "speak"]) (h : m.preimage = m'.preimage) : m.seq = m'.seq := by
  have hbar {kind : String} (hk : kind ∈ ["dup", "listen", "speak"]) : '|' ∉ kind.toList := by
    simp only [List.mem_cons, List.not_mem_nil, or_false] at hk
    rcases hk with rfl | rfl | rfl <;> decide
  have hlist := congrArg String.toList h
  simp only [Mint.preimage, String.toList_append, ToString.toString, Nat.toList_repr] at hlist
  have hsplit (m : Mint) : m.seed.toList ++ "|".toList ++ Nat.toDigits 10 m.millis ++ "|".toList ++
      Nat.toDigits 10 m.seq ++ "|".toList ++ m.kind.toList = ((m.seed.toList ++ '|' :: Nat.toDigits 10 m.millis) ++
        '|' :: Nat.toDigits 10 m.seq) ++ '|' :: m.kind.toList := by
    simp
  rw [hsplit, hsplit] at hlist
  obtain ⟨hfront, -⟩ := last_bar (hbar hm) (hbar hm') hlist
  obtain ⟨-, hseq⟩ := last_bar (bar_notMem_digits _) (bar_notMem_digits _) hfront
  have hnat := congrArg (Nat.ofDigitChars 10 · 0) hseq
  simpa only [Nat.ofDigitChars_ten_toDigits] using hnat

/-- Equal identifiers have equal digests. -/
theorem digest_of_id {m m' : Mint} (hm : m.kind ∈ ["dup", "listen", "speak"])
    (hm' : m'.kind ∈ ["dup", "listen", "speak"]) (h : m.id D = m'.id D) :
    shortDigest D m.preimage = shortDigest D m'.preimage := by
  have hlist := congrArg String.toList h
  simp only [Mint.id, String.toList_append] at hlist
  simp only [List.mem_cons, List.not_mem_nil, or_false] at hm hm'
  rcases hm with hk | hk | hk <;> rcases hm' with hk' | hk' | hk' <;> rw [hk, hk'] at hlist <;>
    first
    | exact String.toList_inj.1 (List.append_cancel_left hlist)
    | simp at hlist

/-- Two identifiers of the run that are made of different texts have the same digest. -/
def World.Collides (D : String → String) (w : World) : Prop :=
  ∃ m ∈ w.minted, ∃ m' ∈ w.minted, m.preimage ≠ m'.preimage ∧
    shortDigest D m.preimage = shortDigest D m'.preimage

theorem collides_of_not_nodup {w : World} (hw : w.Numbered) (h : ¬ (w.book.ids D).Nodup) : w.Collides D := by
  by_contra hnot
  refine h (List.pairwise_map.2 (hw.sorted.imp_of_mem fun ha hb hlt hid => hnot ?_))
  have hka := (hw.below _ ha).2
  have hkb := (hw.below _ hb).2
  refine ⟨_, ha, _, hb, fun hpre => ?_, digest_of_id hka hkb hid⟩
  have hseq := seq_of_preimage hka hkb hpre
  omega

/-- **The slots of every channel are sound, and every stream has its records**, in every run. The second part has
a side condition: ids are short digests of the preimages they are minted from, and where two preimages of one run
share a digest (`World.Collides`) two streams may share an id, and nothing is said of the records. -/
theorem duplex_audit (D : String → String) (ops : List Op) :
    (∀ id c, (World.start.run D ops).registry.get id = some c →
      (c.listen = none ∨ c.speak = none) ∧
      (∀ d s, c.slot d = some s → s.outcome = .active ∧ s.rank < priorities.length) ∧
      ∀ d s, c.last d = some s → s.outcome ≠ .active) ∧
    ((∀ x ∈ (World.start.run D ops).book.streams D,
        (World.start.run D ops).journal.countP (·.starts x) = 1 ∧
        (World.start.run D ops).journal.countP (·.ends x) ≤ 1 ∧
        ((World.start.run D ops).journal.countP (·.ends x) = 1 ↔ ¬ (World.start.run D ops).book.InSlot x)) ∨
      (World.start.run D ops).Collides D) := by
  refine ⟨fun id c hget => ?_, ?_⟩
  · have hc := (sound_run ops).channels id c hget
    exact ⟨hc.one, fun d s hs => ⟨(hc.active d s hs).1, (hc.active d s hs).2.1⟩, hc.ended⟩
  · by_cases hnodup : ((World.start.run D ops).book.ids D).Nodup
    · refine .inl fun x hx => ?_
      have haudit := audited_run ops hnodup
      have hstarted := haudit.started x
      rw [if_pos hx] at hstarted
      by_cases hin : (World.start.run D ops).book.InSlot x
      · have hrun : (World.start.run D ops).journal.countP (·.ends x) = 0 := haudit.running x hin
        exact ⟨hstarted, by omega, by simp [hrun, hin]⟩
      · have hend : (World.start.run D ops).journal.countP (·.ends x) = 1 := haudit.ended x hx hin
        exact ⟨hstarted, by omega, by simp [hend, hin]⟩
    · exact .inr (collides_of_not_nodup (numbered_run ops) hnodup)

end Metalogos.Duplex
