import Metalogos.Chunk.Budget
import Metalogos.Chunk.Tiles

/-!
# Markdown sections

The first chunk of a section with a header line is that line, or begins with it and its line end. The case in which
`chunk_markdown` leaves the line away, since the body already begins with it, does not occur: such a line of the
body would be a header itself.
-/
namespace Metalogos.Chunk

open Metalogos.Lib

/-! ## Header lines -/

theorem isHeaderLine_extend {h l : List Char} (hh : isHeaderLine h = true) (hpre : h <+: l) : isHeaderLine l = true := by
  obtain ⟨r, rfl⟩ := hpre
  simp only [isHeaderLine, Bool.and_eq_true, decide_eq_true_eq] at hh ⊢
  generalize ht : h.dropWhile isWhite = t at hh
  obtain ⟨⟨hone, hthree⟩, hblank⟩ := hh
  obtain ⟨rest, hrest⟩ := List.isPrefixOf_iff_prefix.1 hblank
  have hlen : (t.takeWhile (· = '#')).length < t.length := by
    have h₁ := congrArg List.length hrest
    rw [List.length_append, List.length_drop] at h₁
    simp only [List.length_singleton] at h₁
    omega
  have hne : t ≠ [] := fun hnil => by
    rw [hnil] at hlen
    exact Nat.not_lt_zero _ hlen
  have hdrop : (h ++ r).dropWhile isWhite = t ++ r := by
    rw [List.dropWhile_append, ht, if_neg (by simpa using hne)]
  have htake : (t ++ r).takeWhile (· = '#') = t.takeWhile (· = '#') := by
    rw [List.takeWhile_append, if_neg (Nat.ne_of_lt hlen)]
  rw [hdrop, htake, List.drop_append_of_le_length (Nat.le_of_lt hlen), ← hrest]
  exact ⟨⟨hone, hthree⟩, rfl⟩

/-- The lines of a section have no line end, and only the first may be a header. -/
structure Section.Plain (sec : Section) : Prop where
  noNewline : ∀ l ∈ sec.lines, '\n' ∉ l
  body : ∀ l ∈ sec.lines.tail, isHeaderLine l = false

theorem plain_append {sec : Section} {line : List Char} (h : sec.Plain) (hline : '\n' ∉ line)
    (hheader : isHeaderLine line = false) : Section.Plain { sec with lines := sec.lines ++ [line] } := by
  obtain ⟨path, ls⟩ := sec
  constructor
  · intro l hl
    rcases List.mem_append.1 hl with hl | hl
    · exact h.noNewline l hl
    · rw [List.mem_singleton.1 hl]
      exact hline
  · intro l hl
    cases ls with
    | nil => cases hl
    | cons a ls =>
      have hl : l ∈ ls ++ [line] := hl
      rcases List.mem_append.1 hl with hl | hl
      · exact h.body l hl
      · rw [List.mem_singleton.1 hl]
        exact hheader

theorem plain_single {path line : List Char} (hline : '\n' ∉ line) : Section.Plain ⟨path, [line]⟩ := by
  constructor
  · intro l hl
    rw [List.mem_singleton.1 hl]
    exact hline
  · intro l hl
    cases hl

theorem sectionsFrom_plain {ls : List (List Char)} (hls : ∀ l ∈ ls, '\n' ∉ l) :
    ∀ {stack : List (Option (List Char))} {cur : Option Section}, (∀ sec ∈ cur, sec.Plain) →
    ∀ sec ∈ sectionsFrom stack cur ls, sec.Plain := by
  induction ls with
  | nil =>
    intro stack cur hcur sec hsec
    exact hcur sec (Option.mem_toList.1 hsec)
  | cons line rest ih =>
    intro stack cur hcur
    have hline := hls line List.mem_cons_self
    have hnext : ∀ {stack : List (Option (List Char))} {cur : Option Section}, (∀ sec ∈ cur, sec.Plain) →
        ∀ sec ∈ sectionsFrom stack cur rest, sec.Plain := ih fun l hl => hls l (List.mem_cons_of_mem _ hl)
    have hone {sec' : Section} (hs : sec'.Plain) : ∀ sec ∈ some sec', sec.Plain := by
      intro sec hsec
      cases hsec
      exact hs
    unfold sectionsFrom
    cases hheader : isHeaderLine line with
    | true =>
      rw [if_pos rfl]
      intro sec hsec
      rcases List.mem_append.1 hsec with hsec | hsec
      · exact hcur sec (Option.mem_toList.1 hsec)
      · exact hnext (hone (plain_single hline)) sec hsec
    | false =>
      rw [if_neg Bool.false_ne_true]
      cases cur with
      | none => exact hnext (hone (plain_single hline))
      | some sec' => exact hnext (hone (plain_append (hcur sec' rfl) hline hheader))

theorem newline_notMem_splitLines (s : List Char) : ∀ l ∈ splitLines s, '\n' ∉ l := by
  induction s with
  | nil => simp [splitLines]
  | cons c cs ih =>
    unfold splitLines
    by_cases hc : c = '\n'
    · rw [if_pos hc]
      intro l hl
      rcases List.mem_cons.1 hl with rfl | hl
      · exact List.not_mem_nil
      · exact ih l hl
    · rw [if_neg hc]
      cases hs : splitLines cs with
      | nil =>
        intro l hl
        rw [List.mem_singleton.1 hl]
        simpa using Ne.symm hc
      | cons l' ls =>
        rw [hs] at ih
        intro l hl
        rcases List.mem_cons.1 hl with rfl | hl
        · have := ih l' List.mem_cons_self
          simp [Ne.symm hc, this]
        · exact ih l (List.mem_cons_of_mem _ hl)

theorem newline_notMem_lines (s : List Char) : ∀ l ∈ lines s, '\n' ∉ l := by
  intro l hl
  rcases List.mem_append.1 hl with hl | hl
  · obtain ⟨l', hl', rfl⟩ := List.mem_map.1 hl
    intro hin
    refine newline_notMem_splitLines s l' (List.dropLast_subset _ hl') ?_
    unfold stripCr at hin
    split_ifs at hin
    · exact List.dropLast_subset _ hin
    · exact hin
  · refine newline_notMem_splitLines s l ?_
    exact List.mem_of_getLast? (Option.mem_toList.1 (List.mem_filter.1 hl).1)

theorem sections_plain (text : List Char) : ∀ sec ∈ sections text, sec.Plain := by
  have hall : ∀ sec ∈ sectionsFrom [none, none, none] none (lines text), sec.Plain :=
    sectionsFrom_plain (newline_notMem_lines text) fun sec hsec => by cases hsec
  unfold sections
  cases hs : sectionsFrom [none, none, none] none (lines text) with
  | nil =>
    intro sec hsec
    rw [List.mem_singleton.1 hsec]
    exact plain_single List.not_mem_nil
  | cons sec' secs =>
    rw [hs] at hall
    exact hall

/-! ## The first chunk -/

variable {budget : ℚ} {overlap : Limit} {R : List Char → List Char → Prop}

/-- The first chunk is where the piece begins. -/
theorem mergeFrom_head {rest : List (List Char)} : ∀ {x a p : List Char} {n : Nat}, x ++ a <+: p →
    (n = a.length ∨ (budget < (a.length : ℚ) + 1 ∧ ∀ b ∈ rest.head?, b ≠ [] ∧ R a b)) →
    Tiles budget R (p.drop (x.length + n)) rest →
    ∃ first more, mergeFrom .chars budget overlap (x ++ a) rest = first :: more ∧ first <+: p := by
  induction rest with
  | nil =>
    intro x a p n hpre _ _
    exact ⟨x ++ a, [], rfl, hpre⟩
  | cons b rest ih =>
    intro x a p n hpre hlink htiles
    unfold mergeFrom
    by_cases hjoin : (Metric.chars.len (x ++ a ++ b) : Limit) ≤ budget
    · rw [if_pos hjoin]
      rw [Limit.finite_le_finite] at hjoin
      have hend : n = a.length := by
        refine hlink.resolve_right fun hfull => ?_
        obtain ⟨hover, hhead⟩ := hfull
        have hpos : 0 < b.length := List.length_pos_iff.2 (hhead b rfl).1
        have hone : (1 : ℚ) ≤ b.length := by exact_mod_cast hpos
        have hx : (0 : ℚ) ≤ x.length := Nat.cast_nonneg _
        have hlen : Metric.chars.len (x ++ a ++ b) = x.length + a.length + b.length := by
          simp [Metric.len, add_assoc]
        rw [hlen] at hjoin
        linarith
      obtain ⟨hb, n', hn', hlink', hrest⟩ := htiles
      have hat : b <+: p.drop (0 + (x ++ a).length) := by
        rwa [Nat.zero_add, List.length_append, ← hend]
      have hab : x ++ a ++ b <+: p := @prefix_append p (x ++ a) b 0 hpre hat
      refine ih hab hlink' ?_
      rwa [List.drop_drop, hend, ← List.length_append] at hrest
    · rw [if_neg hjoin]
      exact ⟨x ++ a, _, rfl, hpre⟩

theorem splitAtoms_head {headerGuard : Bool} {text : List Char} {atoms : List (List Char)}
    (h : splitAtoms .chars budget overlap headerGuard seps text = .ok atoms) :
    ∀ first ∈ (mergeAtoms .chars budget overlap atoms).head?, first <+: text := by
  have htiles : Tiles budget (fun _ _ => True) text atoms :=
    splitAtoms_tiles seps_ne_nil (fun p _ ws _ => (List.pairwise_of_forall fun a b => trivial).isChain) h
  intro first hfirst
  cases atoms with
  | nil => cases hfirst
  | cons a rest =>
    obtain ⟨hpre, n, -, hlink, hrest⟩ := htiles
    have hdrop : Tiles budget (fun _ _ => True) (text.drop (([] : List Char).length + n)) rest := by
      rwa [List.length_nil, Nat.zero_add]
    obtain ⟨first', more, heq, hin⟩ := @mergeFrom_head budget overlap _ rest [] a text n hpre hlink hdrop
    have hmerge : mergeAtoms .chars budget overlap (a :: rest) = first' :: more := heq
    rw [hmerge] at hfirst
    cases hfirst
    exact hin

/-- A header line is not where the body begins. -/
theorem header_not_prefix {path h : List Char} {ls : List (List Char)} (hsec : Section.Plain ⟨path, h :: ls⟩)
    (hh : isHeaderLine h = true) : ¬ h <+: ['\n'].intercalate ls := by
  intro hpre
  cases ls with
  | nil =>
    obtain rfl : h = [] := List.prefix_nil.1 hpre
    cases hh
  | cons l ls =>
    have hline : h <+: l := by
      cases ls with
      | nil => simpa using hpre
      | cons l' ls =>
        have hbody : ['\n'].intercalate (l :: l' :: ls) = l ++ '\n' :: ['\n'].intercalate (l' :: ls) := rfl
        rw [hbody] at hpre
        rcases List.prefix_or_prefix_of_prefix hpre (List.prefix_append l _) with hl | ⟨r, rfl⟩
        · exact hl
        · -- the header goes on where the line ends, so it has the line end
          have hr := (List.prefix_append_right_inj l).1 hpre
          cases r with
          | nil => exact (List.append_nil l).symm ▸ List.prefix_refl l
          | cons c r =>
            obtain ⟨rfl, -⟩ := List.cons_prefix_cons.1 hr
            exact absurd (by simp) (hsec.noNewline _ List.mem_cons_self)
    have := hsec.body l List.mem_cons_self
    rw [isHeaderLine_extend hh hline] at this
    cases this

/-- A chunk that is the header line, or begins with the line and its end. -/
def HasHeader (h chunk : List Char) : Prop := chunk = h ∨ h ++ ['\n'] <+: chunk

theorem hasHeader_intercalate (h : List Char) (ls : List (List Char)) : HasHeader h (['\n'].intercalate (h :: ls)) := by
  cases ls with
  | nil => exact .inl (by simp)
  | cons l ls =>
    have hcons : ['\n'].intercalate (h :: l :: ls) = h ++ '\n' :: ['\n'].intercalate (l :: ls) := rfl
    rw [hcons]
    exact .inr ⟨['\n'].intercalate (l :: ls), by simp⟩

theorem sectionChunks_header {sec : Section} {chunks : List (List Char)} (hplain : sec.Plain)
    (h : sectionChunks .chars budget overlap sec = .ok chunks) :
    ∀ header ∈ sec.header, ∃ first ∈ chunks.head?, HasHeader header first := by
  obtain ⟨path, ls⟩ := sec
  intro header hheader
  cases ls with
  | nil => cases hheader
  | cons l ls =>
    unfold Section.header at hheader
    by_cases hl : isHeaderLine l = true
    · obtain rfl : l = header := Option.some.inj ((if_pos hl).symm.trans hheader)
      have hsome : Section.header ⟨path, l :: ls⟩ = some l := if_pos hl
      rcases sectionChunks_cases h with ⟨-, rfl⟩ | ⟨hnone, -⟩ | ⟨header, atoms, hsome', -, hatoms, rfl⟩
      · exact ⟨_, rfl, hasHeader_intercalate l ls⟩
      · rw [hsome] at hnone
        cases hnone
      · obtain rfl : l = header := Option.some.inj (hsome.symm.trans hsome')
        have hhead := @splitAtoms_head (budget - Metric.chars.len l - 1) overlap _ _ _ hatoms
        cases hmerged : mergeAtoms .chars ((budget : Limit) - Metric.chars.len l - 1) overlap atoms with
        | nil => exact ⟨l, rfl, .inl rfl⟩
        | cons first rest =>
          have hfirst : first ∈ (mergeAtoms .chars ((budget : Limit) - Metric.chars.len l - 1) overlap atoms).head? := by
            rw [hmerged]
            rfl
          have hnot : ¬ l <+: first := fun hin => header_not_prefix hplain hl (hin.trans (hhead first hfirst))
          refine ⟨l ++ '\n' :: first, ?_, .inr ⟨first, by simp⟩⟩
          simp only [withHeader]
          rw [if_neg fun hin => hnot (List.isPrefixOf_iff_prefix.1 hin)]
          rfl
    · have hnone : (none : Option (List Char)) = some header := (if_neg hl).symm.trans hheader
      cases hnone

/-! ## The builtin -/

/-- No section is cut where there is no bound. -/
theorem sectionChunks_infinity {sec : Section} :
    sectionChunks .chars (.infinite false) overlap sec = .ok [['\n'].intercalate sec.lines] := by
  unfold sectionChunks
  exact if_pos Limit.finite_le_infinity

/-- A positive budget is a number, or there is no bound. -/
theorem budget_cases {budget : Limit} (hpos : 0 < budget) : budget = .infinite false ∨ ∃ q : ℚ, budget = q := by
  cases budget with
  | nan => exact absurd hpos Limit.not_lt_nan
  | infinite negative =>
    cases negative with
    | false => exact .inl rfl
    | true => exact absurd hpos Limit.not_finite_lt_negative
  | finite q => exact .inr ⟨q, rfl⟩

theorem texts_of_chunks (isMarkdown : Bool) (chunks : List (List Char × List Char)) : ∀ n,
    ((chunks.zipIdx n).map (textChunkOf isMarkdown)).map (·.text) = chunks.map (·.2) := by
  induction chunks with
  | nil => intro n; rfl
  | cons c chunks ih =>
    intro n
    rw [List.zipIdx_cons, List.map_cons, List.map_cons, ih]
    rfl

/-- The chunk is within the budget. -/
def Within (budget : Limit) (c : List Char) : Prop := ((c.length : ℚ) : Limit) ≤ budget

section

variable {budget : Limit}

/-- The chunks of the sections, one after another. -/
theorem chunkSections_parts {secs : List Section} : ∀ {chunks : List (List Char × List Char)},
    chunkSections .chars budget overlap secs = .ok chunks → ∃ parts : List (List (List Char)),
      parts.flatten = chunks.map (·.2) ∧
      List.Forall₂ (fun sec part => sectionChunks .chars budget overlap sec = .ok part) secs parts := by
  induction secs with
  | nil =>
    intro chunks h
    cases h
    exact ⟨[], rfl, List.Forall₂.nil⟩
  | cons sec secs ih =>
    intro chunks h
    obtain ⟨part, rest, hpart, hrest, rfl⟩ := chunkSections_cases h
    obtain ⟨parts, hflat, hall⟩ := ih hrest
    refine ⟨part :: parts, ?_, List.Forall₂.cons hpart hall⟩
    rw [List.flatten_cons, hflat, List.map_append, List.map_map]
    simp

theorem chunkSections_within {secs : List Section} (hsec : ∀ sec part,
    sectionChunks .chars budget overlap sec = .ok part → ∀ c ∈ part, Within budget c) :
    ∀ {chunks : List (List Char × List Char)}, chunkSections .chars budget overlap secs = .ok chunks →
      ∀ q ∈ chunks, Within budget q.2 := by
  induction secs with
  | nil =>
    intro chunks h q hq
    cases h
    cases hq
  | cons sec secs ih =>
    intro chunks h
    obtain ⟨part, rest, hpart, hrest, rfl⟩ := chunkSections_cases h
    intro q hq
    rcases List.mem_append.1 hq with hq | hq
    · obtain ⟨c, hc, rfl⟩ := List.mem_map.1 hq
      exact hsec sec part hpart c hc
    · exact ih hrest q hq

/-- The sections of a text, the empty one included. -/
theorem markdown_parts {text : List Char} {chunks : List (List Char × List Char)} (hpos : 0 < budget)
    (h : chunksOf .chars budget overlap text "markdown" = .ok chunks) : ∃ parts : List (List (List Char)),
    parts.flatten = chunks.map (·.2) ∧
    List.Forall₂ (fun sec part => sectionChunks .chars budget overlap sec = .ok part) (sections text) parts := by
  simp only [chunksOf] at h
  rw [if_pos trivial] at h
  by_cases hnil : text = []
  · rw [if_pos hnil] at h
    cases h
    have hsec : sections text = [⟨[], [[]]⟩] := by rw [hnil]; rfl
    have hfits : (Metric.chars.len (['\n'].intercalate [[]]) : Limit) ≤ budget := Limit.finite_le_of_lt hpos
    have hone : sectionChunks .chars budget overlap ⟨[], [[]]⟩ = .ok [[]] := by
      unfold sectionChunks
      exact if_pos hfits
    rw [hsec]
    exact ⟨[[[]]], rfl, List.Forall₂.cons hone List.Forall₂.nil⟩
  · rw [if_neg hnil] at h
    exact chunkSections_parts h

/-- Every way to cut a text keeps within a positive budget. -/
theorem chunksOf_within {text : List Char} {strategy : String} {chunks : List (List Char × List Char)}
    (hpos : 0 < budget) (h : chunksOf .chars budget overlap text strategy = .ok chunks) :
    ∀ q ∈ chunks, Within budget q.2 := by
  rcases budget_cases hpos with rfl | ⟨b, rfl⟩
  · exact fun q _ => Limit.finite_le_infinity
  have hle {cs : List (List Char)} (hcs : ∀ c ∈ cs, (c.length : ℚ) ≤ b) :
      ∀ q ∈ cs.map (fun c => (([], c) : List Char × List Char)), Within b q.2 := by
    intro q hq
    obtain ⟨c, hc, rfl⟩ := List.mem_map.1 hq
    exact Limit.finite_le_finite.2 (hcs c hc)
  have hempty : ∀ q ∈ [(([], []) : List Char × List Char)], Within b q.2 := by
    intro q hq
    rw [List.mem_singleton.1 hq]
    exact Limit.finite_le_of_lt hpos
  simp only [chunksOf] at h
  by_cases hmd : strategy = "markdown"
  · rw [if_pos hmd] at h
    by_cases hnil : text = []
    · rw [if_pos hnil] at h
      cases h
      exact hempty
    · rw [if_neg hnil] at h
      exact chunkSections_within (fun sec part hpart c hc => Limit.finite_le_finite.2 (sectionChunks_le hpart c hc)) h
  · rw [if_neg hmd] at h
    by_cases hpar : strategy = "paragraph"
    · rw [if_pos hpar] at h
      by_cases hnil : text = []
      · rw [if_pos hnil] at h
        cases h
        exact hempty
      · rw [if_neg hnil] at h
        cases hcs : chunkParagraph .chars b overlap text with
        | error e => rw [hcs] at h; cases h
        | ok cs =>
          rw [hcs] at h
          cases h
          exact hle (chunkParagraph_le hcs)
    · rw [if_neg hpar] at h
      by_cases hfixed : strategy = "fixed"
      · rw [if_pos hfixed] at h
        by_cases hnil : text = []
        · rw [if_pos hnil] at h
          cases h
          exact hempty
        · rw [if_neg hnil] at h
          cases hcs : chunkFixed .chars b overlap text with
          | error e => rw [hcs] at h; cases h
          | ok cs =>
            rw [hcs] at h
            cases h
            exact hle (hardWindows_le hcs)
      · rw [if_neg hfixed] at h
        cases h

/-- The header line of a section is where its first chunk begins. -/
theorem sectionChunks_begins (hpos : 0 < budget) {sec : Section} {part : List (List Char)} (hplain : sec.Plain)
    (h : sectionChunks .chars budget overlap sec = .ok part) :
    ∀ header ∈ sec.header, ∃ first ∈ part.head?, HasHeader header first := by
  rcases budget_cases hpos with rfl | ⟨b, rfl⟩
  · rw [sectionChunks_infinity] at h
    cases h
    obtain ⟨path, ls⟩ := sec
    intro header hheader
    cases ls with
    | nil => cases hheader
    | cons l ls =>
      unfold Section.header at hheader
      dsimp only at hheader
      split_ifs at hheader
      · obtain rfl := Option.some.inj hheader
        exact ⟨_, rfl, hasHeader_intercalate l ls⟩
      · cases hheader
  · exact sectionChunks_header hplain h

end

theorem validate_chars {o : ChunkOpts} {v : Metric × Limit × Limit} (ho : o.maxTokens = none) (h : validate o = .ok v) :
    v = (.chars, o.maxChars, o.overlap) ∧ ¬ o.maxChars ≤ 0 := by
  unfold validate at h
  rw [ho] at h
  split_ifs at h with h₁ h₂ h₃
  cases h
  exact ⟨rfl, h₁⟩

theorem textChunk_cases {text : List Char} {strategy : String} {o : ChunkOpts} {chunks : List TextChunk}
    (ho : o.maxTokens = none) (h : textChunk text strategy o = .ok chunks) : ¬ o.maxChars ≤ 0 ∧ ∃ pairs,
    chunksOf .chars o.maxChars o.overlap text strategy = .ok pairs ∧
      chunks = pairs.zipIdx.map (textChunkOf (strategy = "markdown")) := by
  unfold textChunk at h
  cases hv : validate o with
  | error e => rw [hv] at h; cases h
  | ok v =>
    obtain ⟨rfl, hpos⟩ := validate_chars ho hv
    rw [hv] at h
    dsimp only at h
    cases hcs : chunksOf .chars o.maxChars o.overlap text strategy with
    | error e => rw [hcs] at h; cases h
    | ok pairs =>
      rw [hcs] at h
      cases h
      exact ⟨hpos, pairs, rfl, rfl⟩

/-- Every chunk is within the budget, and the first chunk of a section begins with its header line. -/
structure Budgeted (o : ChunkOpts) (strategy : String) (text : List Char) (chunks : List TextChunk) : Prop where
  within : ∀ c ∈ chunks, Within o.maxChars c.text
  headers : strategy = "markdown" → ∃ parts : List (List (List Char)), parts.flatten = chunks.map (·.text) ∧
    List.Forall₂ (fun sec part => sectionChunks .chars o.maxChars o.overlap sec = .ok part ∧
      ∀ header ∈ sec.header, ∃ first ∈ part.head?, HasHeader header first) (sections text) parts

theorem textChunk_budget {text : List Char} {strategy : String} {o : ChunkOpts} {chunks : List TextChunk}
    (ho : o.maxTokens = none) (hnan : o.maxChars ≠ .nan) (h : textChunk text strategy o = .ok chunks) :
    Budgeted o strategy text chunks := by
  obtain ⟨hle, pairs, hcs, rfl⟩ := textChunk_cases ho h
  have hpos : 0 < o.maxChars := Limit.finite_lt_of_not_le hnan hle
  constructor
  · intro c hc
    have hmem : c.text ∈ pairs.map (·.2) := by
      rw [← texts_of_chunks (strategy = "markdown") pairs 0]
      exact List.mem_map_of_mem hc
    obtain ⟨q, hq, heq⟩ := List.mem_map.1 hmem
    rw [← heq]
    exact chunksOf_within hpos hcs q hq
  · rintro rfl
    obtain ⟨parts, hflat, hall⟩ := markdown_parts hpos hcs
    refine ⟨parts, by rw [texts_of_chunks, hflat], ?_⟩
    have hboth := (List.forall₂_and_left _ _).2 ⟨sections_plain text, hall⟩
    refine hboth.imp fun sec part hpart => ?_
    exact ⟨hpart.2, sectionChunks_begins hpos hpart.1 hpart.2⟩

/-! ## A budget that is no number -/

theorem grow_nan {m : Metric} (cs : List Char) : ∀ w : List Char, grow m .nan w cs = w ++ cs := by
  induction cs with
  | nil => exact fun w => (List.append_nil w).symm
  | cons c cs ih =>
    intro w
    rw [grow, if_neg Limit.not_nan_lt, ih, List.append_assoc, List.singleton_append]

/-- No window breaks the budget, so the first one is the whole text. -/
theorem hardWindows_nan {m : Metric} {text : List Char} (hne : text ≠ []) :
    hardWindows m .nan overlap 0 text = .ok [text] := by
  cases text with
  | nil => exact absurd rfl hne
  | cons c cs =>
    rw [hardWindows, grow_nan, List.nil_append]
    exact (if_neg hne).trans (if_pos (Nat.le_refl _))

/-- Such a budget is admitted, and a text in windows is one chunk, however long it is. -/
theorem textChunk_nan_whole {text : List Char} (hne : text ≠ []) :
    textChunk text "fixed" ⟨.nan, 100, none⟩ = .ok [textChunkOf false (([], text), 0)] := by
  have hfixed : chunksOf .chars .nan 100 text "fixed" = .ok [([], text)] := by
    simp only [chunksOf, chunkFixed, hardWindows_nan hne, if_neg hne]
    rfl
  have hadmits : validate ⟨.nan, 100, none⟩ = .ok (.chars, .nan, 100) := rfl
  simp only [textChunk, hadmits, hfixed]
  rfl

/-- For options that `validate` admits: the chunks of every text are within the budget exactly when it is a number or
has no bound. -/
theorem textChunk_budget_iff {strategy : String} {o : ChunkOpts} (hs : strategy ∈ ["markdown", "paragraph", "fixed"])
    (ho : o.maxTokens = none) (hv : ∃ v, validate o = .ok v) :
    (∀ text chunks, textChunk text strategy o = .ok chunks → Budgeted o strategy text chunks) ↔ o.maxChars ≠ .nan := by
  constructor
  · intro h hnan
    obtain ⟨v, hv⟩ := hv
    obtain ⟨rfl, -⟩ := validate_chars ho hv
    have hone : textChunk [] strategy o = .ok [textChunkOf (strategy = "markdown") (([], []), 0)] := by
      unfold textChunk
      rw [hv]
      simp only [List.mem_cons, List.not_mem_nil, or_false] at hs
      rcases hs with rfl | rfl | rfl <;> rfl
    have hwithin := (h [] _ hone).within _ List.mem_cons_self
    rw [hnan] at hwithin
    exact Limit.not_le_nan hwithin
  · exact fun hnan text chunks h => textChunk_budget ho hnan h

/-- A header line of three characters and a body of five, with a budget of eight. -/
theorem textChunk_budget_section : ∃ chunks, textChunk "# A\nab cd".toList "markdown" ⟨8, 0, none⟩ = .ok chunks ∧
    chunks.map (·.text) = ["# A\nab".toList, " cd".toList] ∧ Budgeted ⟨8, 0, none⟩ "markdown" "# A\nab cd".toList chunks := by
  have hiff := @textChunk_budget_iff "markdown" ⟨8, 0, none⟩ (by simp) rfl ⟨_, rfl⟩
  cases h : textChunk "# A\nab cd".toList "markdown" ⟨8, 0, none⟩ with
  | error e =>
    have hok : (textChunk "# A\nab cd".toList "markdown" ⟨8, 0, none⟩).toOption.isSome = true := by decide +kernel
    rw [h] at hok
    cases hok
  | ok chunks =>
    have htexts : (textChunk "# A\nab cd".toList "markdown" ⟨8, 0, none⟩).toOption.map (fun cs => cs.map (·.text)) =
        some ["# A\nab".toList, " cd".toList] := by decide +kernel
    rw [h] at htexts
    exact ⟨chunks, rfl, Option.some.inj htexts, hiff.2 (by decide) _ _ h⟩

/-- A word of six characters, with a budget that is no number. -/
theorem textChunk_nan : ¬ ∀ (text : List Char) (strategy : String) (o : ChunkOpts) (chunks : List TextChunk),
    o.maxTokens = none → textChunk text strategy o = .ok chunks → Budgeted o strategy text chunks := by
  intro h
  have hone := textChunk_nan_whole (show "abcdef".toList ≠ [] by decide)
  exact Limit.not_le_nan ((h _ _ _ _ rfl hone).within _ List.mem_cons_self)

end Metalogos.Chunk
