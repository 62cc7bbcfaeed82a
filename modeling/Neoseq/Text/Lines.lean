import Mathlib

/-! Texts by their lines, over any alphabet with a separator. A position has a row, the number of
separators before it; where lines keep their number, rows do. -/

namespace Neoseq.Text

variable {α : Type} (sep : α)

/-- Lines that all end with the separator. -/
def ended (lines : List (List α)) : List α := lines.flatMap (· ++ [sep])

/-- Lines that all begin with the separator. -/
def begun (lines : List (List α)) : List α := lines.flatMap (sep :: ·)

/-- No line holds the separator. -/
def Plain (lines : List (List α)) : Prop := ∀ line ∈ lines, sep ∉ line

/-- The separators before a position. -/
def rowOf [DecidableEq α] (text : List α) (position : Nat) : Nat := (text.take position).count sep

/-! ## Splitting and joining -/

@[simp] theorem ended_nil : ended sep ([] : List (List α)) = [] := rfl

@[simp] theorem begun_nil : begun sep ([] : List (List α)) = [] := rfl

@[simp] theorem ended_cons (line : List α) (lines : List (List α)) :
    ended sep (line :: lines) = line ++ sep :: ended sep lines := by
  simp [ended]

@[simp] theorem begun_cons (line : List α) (lines : List (List α)) :
    begun sep (line :: lines) = sep :: (line ++ begun sep lines) := by
  simp [begun]

@[simp] theorem ended_append (lines more : List (List α)) :
    ended sep (lines ++ more) = ended sep lines ++ ended sep more := by
  simp [ended]

theorem intercalate_concat (lines : List (List α)) (last : List α) :
    [sep].intercalate (lines ++ [last]) = ended sep lines ++ last := by
  induction lines with
  | nil => exact List.intercalate_singleton
  | cons line lines ih =>
    have hne : lines ++ [last] ≠ [] := by simp
    rw [List.cons_append, List.intercalate_cons_of_ne_nil hne, ih, ended_cons]
    simp

theorem ended_eq {lines : List (List α)} (hne : lines ≠ []) :
    ended sep lines = [sep].intercalate lines ++ [sep] := by
  have hlast := List.dropLast_concat_getLast hne
  rw [← hlast, intercalate_concat, ended_append, ended_cons, ended_nil, List.append_assoc]

variable {sep}

@[simp] theorem plain_nil : Plain sep ([] : List (List α)) := nofun

@[simp] theorem plain_cons {line : List α} {lines : List (List α)} :
    Plain sep (line :: lines) ↔ sep ∉ line ∧ Plain sep lines :=
  List.forall_mem_cons

@[simp] theorem plain_append {lines more : List (List α)} :
    Plain sep (lines ++ more) ↔ Plain sep lines ∧ Plain sep more :=
  List.forall_mem_append

variable [DecidableEq α]

variable (sep) in
theorem plain_splitOn (text : List α) : Plain sep (text.splitOn sep) := by
  induction text with
  | nil =>
    intro line hline
    obtain rfl := List.mem_singleton.mp hline
    exact List.not_mem_nil
  | cons unit text ih =>
    intro line hline
    rw [List.splitOn_cons_eq_if_modifyHead] at hline
    split at hline
    · rcases List.mem_cons.mp hline with rfl | hline
      · exact List.not_mem_nil
      · exact ih line hline
    · rename_i hunit
      cases hlines : text.splitOn sep with
      | nil => exact absurd hlines (List.splitOn_ne_nil _ _)
      | cons first rest =>
        rw [hlines] at ih
        obtain ⟨hfirst, hrest⟩ := plain_cons.mp ih
        rw [hlines, List.modifyHead_cons] at hline
        rcases List.mem_cons.mp hline with rfl | hline
        · intro hmem
          rcases List.mem_cons.mp hmem with rfl | hmem
          · exact hunit (beq_self_eq_true _)
          · exact hfirst hmem
        · exact hrest line hline

theorem splitOn_ended_append {lines : List (List α)} (h : Plain sep lines) (text : List α) :
    (ended sep lines ++ text).splitOn sep = lines ++ text.splitOn sep := by
  induction lines with
  | nil => rfl
  | cons line lines ih =>
    obtain ⟨hline, hlines⟩ := plain_cons.mp h
    rw [ended_cons, List.append_assoc, List.cons_append,
      List.splitOn_append_cons_self_of_not_mem hline, ih hlines, List.cons_append]

theorem splitOn_append_begun {line : List α} {lines : List (List α)}
    (h : Plain sep (line :: lines)) :
    (line ++ begun sep lines).splitOn sep = line :: lines := by
  induction lines generalizing line with
  | nil => rw [begun_nil, List.append_nil, List.splitOn_eq_singleton (plain_cons.mp h).1]
  | cons next lines ih =>
    obtain ⟨hline, hlines⟩ := plain_cons.mp h
    rw [begun_cons, List.splitOn_append_cons_self_of_not_mem hline, ih hlines]

/-- The lines before a place, the line with the place and the lines behind. -/
theorem splitOn_lines {before behind : List (List α)} {line : List α}
    (h : Plain sep (before ++ line :: behind)) :
    (ended sep before ++ (line ++ begun sep behind)).splitOn sep = before ++ line :: behind := by
  obtain ⟨hbefore, hbehind⟩ := plain_append.mp h
  rw [splitOn_ended_append hbefore, splitOn_append_begun hbehind]

variable (sep)

/-- Every text ends with a line that nothing ends. -/
theorem exists_ended (text : List α) :
    ∃ lines line, Plain sep (lines ++ [line]) ∧ text = ended sep lines ++ line := by
  have hne := List.splitOn_ne_nil sep text
  have hlast := List.dropLast_concat_getLast hne
  refine ⟨(text.splitOn sep).dropLast, (text.splitOn sep).getLast hne, ?_, ?_⟩
  · rw [hlast]
    exact plain_splitOn sep text
  · rw [← intercalate_concat, hlast, List.intercalate_splitOn]

/-- Every text begins with a line that nothing begins. -/
theorem exists_begun (text : List α) :
    ∃ line lines, Plain sep (line :: lines) ∧ text = line ++ begun sep lines := by
  induction text with
  | nil => exact ⟨[], [], by simp, rfl⟩
  | cons unit text ih =>
    obtain ⟨line, lines, hplain, rfl⟩ := ih
    by_cases hunit : unit = sep
    · refine ⟨[], line :: lines, plain_cons.mpr ⟨List.not_mem_nil, hplain⟩, ?_⟩
      rw [hunit, begun_cons, List.nil_append]
    · obtain ⟨hline, hlines⟩ := plain_cons.mp hplain
      refine ⟨unit :: line, lines, plain_cons.mpr ⟨?_, hlines⟩, rfl⟩
      intro hmem
      rcases List.mem_cons.mp hmem with rfl | hmem
      · exact hunit rfl
      · exact hline hmem

/-! ## Rows -/

variable {sep}

theorem count_ended {lines : List (List α)} (h : Plain sep lines) :
    (ended sep lines).count sep = lines.length := by
  induction lines with
  | nil => rfl
  | cons line lines ih =>
    obtain ⟨hline, hlines⟩ := plain_cons.mp h
    rw [ended_cons, List.count_append, List.count_cons_self, ih hlines,
      List.count_eq_zero_of_not_mem hline, Nat.zero_add, List.length_cons]

/-- A position on the line behind some lines. -/
theorem rowOf_eq {lines : List (List α)} {line rest : List α} (h : Plain sep lines)
    (hline : sep ∉ line) {column : Nat} (hcolumn : column ≤ line.length) :
    rowOf sep (ended sep lines ++ (line ++ rest)) ((ended sep lines).length + column) =
      lines.length := by
  unfold rowOf
  rw [List.take_length_add_append, List.count_append, count_ended h,
    List.take_append_of_le_length hcolumn,
    List.count_eq_zero_of_not_mem fun hmem => hline (List.mem_of_mem_take hmem), Nat.add_zero]

variable (sep) in
theorem rowOf_mono (text : List α) {position other : Nat} (h : position ≤ other) :
    rowOf sep text position ≤ rowOf sep text other := by
  unfold rowOf
  exact (List.take_sublist_take_left h).count_le sep

/-- A position on lines that all end has not passed all of them. -/
theorem rowOf_lt {lines : List (List α)} (h : Plain sep lines) (rest : List α) {position : Nat}
    (hposition : position < (ended sep lines).length) :
    rowOf sep (ended sep lines ++ rest) position < lines.length := by
  have hne : lines ≠ [] := by
    rintro rfl
    exact absurd hposition (Nat.not_lt_zero _)
  have hlast : (ended sep lines).getLast? = some sep := by
    rw [ended_eq sep hne, List.getLast?_concat]
  have hdrop : sep ∈ (ended sep lines).drop position := by
    have hsome := List.getLast?_drop (i := position) (l := ended sep lines)
    rw [if_neg (Nat.not_le.mpr hposition), hlast] at hsome
    exact List.mem_of_getLast? hsome
  have hcount : lines.length = ((ended sep lines).take position).count sep +
      ((ended sep lines).drop position).count sep := by
    rw [← List.count_append, List.take_append_drop, count_ended h]
  have hpos := List.count_pos_iff.mpr hdrop
  unfold rowOf
  rw [List.take_append_of_le_length (Nat.le_of_lt hposition)]
  omega

end Neoseq.Text
