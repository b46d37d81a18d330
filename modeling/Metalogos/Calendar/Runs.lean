import Metalogos.Calendar.Content

/-!
# Whole updates

The fields are written one after the other. A run of clean fields keeps every line of the text and adds the line of
each field (`updated_of_cleanRun`): a property written once is no field of the rest of such a run (`cleanRun_named`).
-/
namespace Metalogos.Calendar

open Metalogos.Lib

/-! ## Texts of events -/

theorem contentLine_begin : ContentLine beginEvent := ⟨by decide, by decide, by decide, by decide⟩

theorem contentLine_end : ContentLine endEvent := ⟨by decide, by decide, by decide, by decide⟩

theorem VEvent.content_allLines (event : VEvent) : ∀ line ∈ event.allLines, ContentLine line.1 := by
  intro line hline
  rw [VEvent.allLines, List.cons_append, List.mem_cons, List.mem_append, List.mem_singleton] at hline
  rcases hline with rfl | hline | rfl
  · exact contentLine_begin
  · exact event.content line hline
  · exact contentLine_end

theorem lines_ends {ls : List (List Char × Eol)} (h : ∀ line ∈ ls, ContentLine line.1) :
    lines (ls.flatMap fun (line, eol) => line ++ eol.text) = ls.map Prod.fst := by
  induction ls with
  | nil => rfl
  | cons line ls ih =>
    obtain ⟨line, eol⟩ := line
    have hline : ContentLine line := h (line, eol) List.mem_cons_self
    have hrest := ih fun line' hin => h line' (List.mem_cons_of_mem _ hin)
    rw [List.flatMap_cons, List.map_cons, ← hrest, List.append_assoc]
    cases eol with
    | crlf => exact lines_crlf_cons hline.one_line _
    | lf =>
      have hcr : stripCr line = line := if_neg fun hlast => hline.no_return (List.mem_of_getLast? hlast)
      have hcons := lines_cons hline.one_line (ls.flatMap fun (line, eol) => line ++ eol.text)
      rw [hcr] at hcons
      exact hcons

theorem VEvent.lines_text (event : VEvent) : lines event.text = event.allLines.map Prod.fst :=
  lines_ends event.content_allLines

theorem VEvent.sound (event : VEvent) : Sound event.text where
  named := by
    intro line hline
    rw [event.lines_text] at hline
    obtain ⟨pair, hpair, rfl⟩ := List.mem_map.1 hline
    exact (event.content_allLines pair hpair).named
  ends := by
    have htext : event.text = (beginEvent ++ event.first.text ++
        event.properties.flatMap fun (line, eol) => line ++ eol.text) ++ endEvent ++ event.last.text := by
      simp [VEvent.text, VEvent.allLines]
    rw [htext]
    exact List.infix_append _ _ _

/-! ## Runs -/

section runs

variable {text line : List Char} {field : List Char × List Char} {fields : List (List Char × List Char)}

theorem mem_lines_of_clean (h : Clean text field) (hline : line ∈ lines text) :
    line ∈ lines (setProperty text field) := by
  obtain ⟨front, back, htext, hout⟩ := clean_lines h
  rw [htext] at hline
  rw [hout]
  rcases List.mem_append.1 hline with hin | hin
  · exact List.mem_append_left _ hin
  · exact List.mem_append_right _ (List.mem_cons_of_mem _ hin)

theorem cleanRun_named (h : CleanRun text fields) (hline : line ∈ lines text) :
    nameOf line ∉ fields.map Prod.fst := by
  induction fields generalizing text with
  | nil => simp
  | cons field fields ih =>
    obtain ⟨hfirst, hrest⟩ := h
    rw [List.map_cons, List.mem_cons, not_or]
    exact ⟨hfirst.unnamed line hline, ih hrest (mem_lines_of_clean hfirst hline)⟩

theorem filter_named {k : List Char} {keys : List (List Char)} (h : k ∉ keys) (ls : List (List Char)) :
    (ls.filter (nameOf · ∉ keys)).filter (nameOf · = k) = ls.filter (nameOf · = k) := by
  rw [List.filter_filter]
  refine List.filter_congr fun line _ => ?_
  by_cases hname : nameOf line = k
  · simp [hname, h]
  · simp [hname]

theorem filter_others (k : List Char) (keys ls : List (List Char)) :
    ls.filter (nameOf · ∉ k :: keys) = (ls.filter (nameOf · ∉ keys)).filter (nameOf · ∉ [k]) := by
  rw [List.filter_filter]
  refine List.filter_congr fun line _ => ?_
  simp

theorem filter_swap (k : List Char) (keys ls : List (List Char)) :
    (ls.filter (nameOf · ∉ keys)).filter (nameOf · ∉ [k]) = (ls.filter (nameOf · ∉ [k])).filter (nameOf · ∉ keys) := by
  rw [List.filter_filter, List.filter_filter]
  exact List.filter_congr fun line _ => Bool.and_comm _ _

theorem Updated.others_single {out : List Char} (h : Updated [field] text out) :
    (lines out).filter (nameOf · ∉ [field.1]) = (lines text).filter (nameOf · ∉ [field.1]) := h.others

theorem updated_of_cleanRun (h : CleanRun text fields) : Updated fields text (fields.foldl setProperty text) := by
  induction fields generalizing text with
  | nil => exact ⟨by simp, rfl⟩
  | cons field fields ih =>
    obtain ⟨hfirst, hrest⟩ := h
    have hstep : Updated [field] text (setProperty text field) := updated_of_clean hfirst
    have hrun := ih hrest
    obtain ⟨line, hline, hvalue⟩ := hstep.each field List.mem_cons_self
    have hfresh : field.1 ∉ fields.map Prod.fst := by
      obtain ⟨hin, hname⟩ := List.mem_filter.1 (hline ▸ List.mem_singleton_self line)
      have hname : nameOf line = field.1 := by simpa using hname
      exact hname ▸ cleanRun_named hrest hin
    rw [List.foldl_cons]
    constructor
    · intro field' hfield'
      rcases List.mem_cons.1 hfield' with rfl | hin
      · refine ⟨line, ?_, hvalue⟩
        rw [← filter_named hfresh, hrun.others, filter_named hfresh, hline]
      · exact hrun.each field' hin
    · rw [List.map_cons, filter_others field.1 (fields.map Prod.fst) (lines text), filter_swap, ← hstep.others_single]
      rw [← filter_swap, ← hrun.others, ← filter_others]

end runs

/-- An update of one field leaves what it ought to exactly when the field is clean, and an update of clean fields
does. -/
theorem calUpdate_iff (toUppercase : String → String) (display : Json → String) (event : VEvent) :
    (∀ fields, CleanRun event.text (written toUppercase display fields) →
      Updated (written toUppercase display fields) event.text (calUpdate toUppercase display event.text fields)) ∧
    ∀ field, Updated (written toUppercase display [field]) event.text
        (calUpdate toUppercase display event.text [field]) ↔
      CleanRun event.text (written toUppercase display [field]) := by
  have hall : ∀ fields, CleanRun event.text (written toUppercase display fields) →
      Updated (written toUppercase display fields) event.text (calUpdate toUppercase display event.text fields) := by
    intro fields hclean
    rw [calUpdate_eq]
    exact updated_of_cleanRun hclean
  refine ⟨hall, fun field => ⟨fun h => ?_, hall [field]⟩⟩
  rw [calUpdate_eq] at h
  cases hval : valStr display field.2 with
  | none =>
    have hnil : written toUppercase display [field] = [] := by simp [written, hval]
    rw [hnil]
    trivial
  | some val =>
    have hone : written toUppercase display [field] = [(icalKey toUppercase field.1, icalVal field.1 val)] := by
      simp [written, hval]
    rw [hone] at h ⊢
    exact ⟨(updated_iff event.sound).1 h, trivial⟩

/-- A party with a summary. -/
def party : VEvent where
  first := .crlf
  properties := [("SUMMARY:old".toList, .crlf)]
  last := .crlf
  content := by
    intro property h
    rw [List.mem_singleton.1 h]
    exact ⟨by decide, by decide, by decide, by decide⟩

theorem cleanRun_party : CleanRun party.text (written id (fun _ => "") [("location", .str "Riga"), ("url", .null)]) := by
  refine ⟨⟨plain_of_all (by decide +kernel), by decide +kernel, by decide +kernel, by decide +kernel, ?_⟩, trivial⟩
  exact ⟨"BEGIN:VEVENT\r\nSUMMARY:old\r\n".toList, "END:VEVENT\r\n".toList, by decide +kernel, by decide +kernel⟩

theorem calUpdate_iff_party :
    Updated (written id (fun _ => "") [("location", .str "Riga"), ("url", .null)]) party.text
      (calUpdate id (fun _ => "") party.text [("location", .str "Riga"), ("url", .null)]) :=
  (calUpdate_iff id (fun _ => "") party).1 _ cleanRun_party

/-- The line becomes `:SUMMARY:new`. -/
theorem calUpdate_splices : ¬ ∀ (event : VEvent) (fields : List (String × Json)),
    Updated (written id (fun _ => "") fields) event.text (calUpdate id (fun _ => "") event.text fields) := by
  intro h
  obtain ⟨line, hline, -⟩ := (h party [("summary", .str "new")]).each ("SUMMARY".toList, "new".toList) (by decide +kernel)
  have hnone : (lines (calUpdate id (fun _ => "") party.text [("summary", .str "new")])).filter
      (nameOf · = "SUMMARY".toList) = [] := by decide +kernel
  have hempty : [] = [line] := hnone.symm.trans hline
  cases hempty

end Metalogos.Calendar
