import Neoseq.Vim.Graphemes
import Neoseq.Entities.Names
import Neoseq.Text.Lines

/-! Code blocks: a text between two fence lines. Three patterns read a fence line, the one that
opens a block, the one that closes it and the one for lines of a body that would close it. -/

namespace Neoseq.Code

open Neoseq.Vim (Text newline)

def space : UInt16 := 32

def tab : UInt16 := 9

def backtick : UInt16 := 96

def tilde : UInt16 := 126

def isFence (unit : UInt16) : Bool := unit == backtick || unit == tilde

def isBlank (unit : UInt16) : Bool := unit == space || unit == tab

/-- What `trim` takes away; half of a surrogate pair is none of it. -/
def isTrimmed (unit : UInt16) : Bool := Entities.isJsWhitespace (Char.ofNat unit.toNat)

/-- `String.prototype.trim`. -/
def trim (text : Text) : Text :=
  ((text.dropWhile isTrimmed).reverse.dropWhile isTrimmed).reverse

/-- The units at the start of a line that are its first one. -/
def firstRun : Text → Text
  | [] => []
  | char :: rest => (char :: rest).takeWhile (· == char)

/-- A text without its first run. -/
def afterRun : Text → Text
  | [] => []
  | char :: rest => (char :: rest).dropWhile (· == char)

/-- `OPENING`: the marker and the info string of a line. -/
def opening (line : Text) : Option (Text × Text) :=
  if line.head?.any isFence ∧ 3 ≤ (firstRun line).length ∧ newline ∉ afterRun line then
    some (firstRun line, afterRun line)
  else none

/-- The run of a line that is nothing else, up to blanks behind it. -/
def onlyRun (line : Text) : Option Text :=
  if line.head?.any isFence ∧ (afterRun line).all isBlank then some (firstRun line) else none

def closingRun (line : Text) (char : UInt16) : Nat :=
  if (line.takeWhile (· == space)).length ≤ 3 then
    match onlyRun (line.dropWhile (· == space)) with
    | some run => if run.head? = some char then run.length else 0
    | none => 0
  else 0

/-- The pattern that closes a block. -/
def closing (line : Text) : Option Text := (onlyRun line).filter fun run => 3 ≤ run.length

structure Parsed where
  marker : Text
  info : Text
  closeLength : Nat
  lines : List Text
  bodyStart : Nat
  bodyEnd : Nat

def parse (source : Text) : Option Parsed :=
  let lines := source.splitOn newline
  if lines.length < 3 then none
  else
    let first := lines.head?.getD []
    match opening first with
    | none => none
    | some (marker, info) =>
      if marker.head? = some backtick ∧ backtick ∈ info then none
      else
        let last := lines.getLast?.getD []
        match closing last with
        | none => none
        | some close =>
          if close.head? ≠ marker.head? then none
          else some ⟨marker, info, close.length, lines, first.length + 1,
            source.length - last.length - 1⟩

def longestClosingRun (lines : List Text) (char : UInt16) : Nat :=
  lines.foldl (fun longest line => max longest (closingRun line char)) 0

structure CodeFence where
  marker : Text
  info : Text
  body : Text
  bodyStart : Nat
  bodyEnd : Nat

/-- `lines.slice(1, -1)`. -/
def inner (lines : List Text) : List Text := lines.tail.dropLast

def markerChar (marker : Text) : UInt16 := marker.head?.getD 0

def codeFence (source : Text) : Option CodeFence :=
  match parse source with
  | none => none
  | some ⟨marker, info, closeLength, lines, bodyStart, bodyEnd⟩ =>
    if closeLength < marker.length then none
    else if longestClosingRun (inner lines) (markerChar marker) ≥ marker.length then none
    else some ⟨marker, trim info, Vim.Unicode.slice source bodyStart bodyEnd, bodyStart, bodyEnd⟩

/-- The longer source, and by how many units its marker is longer. -/
def lengthenFence (source : Text) : Option (Text × Nat) :=
  match parse source with
  | none => none
  | some ⟨marker, info, _, lines, _, _⟩ =>
    let needed := longestClosingRun (inner lines) (markerChar marker) + 1
    if needed ≤ marker.length then none
    else
      let longer := List.replicate needed (markerChar marker)
      let body := [newline].intercalate (inner lines)
      some (longer ++ info ++ newline :: (body ++ newline :: longer), needed - marker.length)

def fencedSource (body info : Text) : Text :=
  let needed := max 3 (longestClosingRun (body.splitOn newline) backtick + 1)
  let marker := List.replicate needed backtick
  marker ++ info ++ newline :: (body ++ newline :: marker)

def withInfo (source : Text) (fence : CodeFence) (info : Text) : Text :=
  fence.marker ++ info ++ newline :: source.drop fence.bodyStart

/-! ## Runs -/

theorem firstRun_append {char : UInt16} {n : Nat} {rest : Text} (hn : 0 < n)
    (hrest : rest.head? ≠ some char) :
    firstRun (List.replicate n char ++ rest) = List.replicate n char ∧
      afterRun (List.replicate n char ++ rest) = rest := by
  obtain ⟨k, rfl⟩ := Nat.exists_eq_add_of_lt hn
  rw [Nat.zero_add]
  have hall : ∀ unit ∈ List.replicate (k + 1) char, (unit == char) = true := by
    intro unit hunit
    rw [List.eq_of_mem_replicate hunit]
    exact beq_self_eq_true char
  have hstop : rest.takeWhile (· == char) = [] ∧ rest.dropWhile (· == char) = rest := by
    cases rest with
    | nil => exact ⟨rfl, rfl⟩
    | cons first rest =>
      have hne : (first == char) = false := by
        rw [beq_eq_false_iff_ne]
        rintro rfl
        exact hrest rfl
      rw [List.takeWhile_cons, List.dropWhile_cons, hne]
      exact ⟨rfl, rfl⟩
  constructor
  · show ((List.replicate (k + 1) char ++ rest).takeWhile (· == char)) = _
    rw [List.takeWhile_append_of_pos hall, hstop.1, List.append_nil]
  · show ((List.replicate (k + 1) char ++ rest).dropWhile (· == char)) = _
    rw [List.dropWhile_append_of_pos hall, hstop.2]

/-- A line that starts with a unit is a run of it and the rest. -/
theorem exists_run {line : Text} {char : UInt16} (h : line.head? = some char) :
    ∃ n rest, 0 < n ∧ rest.head? ≠ some char ∧ line = List.replicate n char ++ rest := by
  cases line with
  | nil => cases h
  | cons first rest =>
    obtain rfl := Option.some.inj h
    refine ⟨((first :: rest).takeWhile (· == first)).length,
      (first :: rest).dropWhile (· == first), ?_, ?_, ?_⟩
    · rw [List.takeWhile_cons, beq_self_eq_true]
      exact Nat.zero_lt_succ _
    · intro hhead
      have hnot := List.head?_dropWhile_not (· == first) (first :: rest)
      rw [hhead] at hnot
      simp at hnot
    · conv => lhs; rw [← List.takeWhile_append_dropWhile (p := (· == first)) (l := first :: rest)]
      congr 1
      refine List.eq_replicate_iff.mpr ⟨rfl, fun unit hunit => ?_⟩
      have hsame : (unit == first) = true := List.mem_takeWhile_imp (p := (· == first)) hunit
      exact eq_of_beq hsame

theorem head?_replicate_append {n : Nat} (hn : 0 < n) (char : UInt16) (rest : Text) :
    (List.replicate n char ++ rest).head? = some char := by
  obtain ⟨k, rfl⟩ := Nat.exists_eq_add_of_lt hn
  rw [Nat.zero_add]
  rfl

theorem markerChar_replicate {n : Nat} (hn : 0 < n) (char : UInt16) :
    markerChar (List.replicate n char) = char := by
  have hhead := head?_replicate_append hn char []
  rw [List.append_nil] at hhead
  unfold markerChar
  rw [hhead, Option.getD_some]

theorem not_mem_replicate {char : UInt16} (h : isFence char = true) (n : Nat) :
    newline ∉ List.replicate n char := by
  intro hmem
  obtain rfl := List.eq_of_mem_replicate hmem
  exact absurd h (by decide)

/-- What `opening` accepts. -/
theorem opening_eq_some_iff {line marker info : Text} :
    opening line = some (marker, info) ↔
      ∃ char n, isFence char = true ∧ 3 ≤ n ∧ info.head? ≠ some char ∧ newline ∉ info ∧
        marker = List.replicate n char ∧ line = marker ++ info := by
  unfold opening
  constructor
  · intro h
    split at h
    · rename_i hcond
      obtain ⟨hfence, hlength, hbreak⟩ := hcond
      obtain ⟨hmarker, hinfo⟩ := Prod.mk.inj (Option.some.inj h)
      obtain ⟨char, hhead, hchar⟩ := (Option.any_eq_true _ _).mp hfence
      obtain ⟨n, rest, hn, hrest, rfl⟩ := exists_run hhead
      obtain ⟨hfirst, hafter⟩ := firstRun_append hn hrest
      rw [hfirst] at hmarker hlength
      rw [hafter] at hinfo hbreak
      subst hmarker hinfo
      rw [List.length_replicate] at hlength
      exact ⟨char, n, hchar, hlength, hrest, hbreak, rfl, rfl⟩
    · cases h
  · rintro ⟨char, n, hchar, hn, hinfo, hbreak, rfl, rfl⟩
    have hpos : 0 < n := by omega
    obtain ⟨hfirst, hafter⟩ := firstRun_append hpos hinfo
    rw [hfirst, hafter, head?_replicate_append hpos, List.length_replicate]
    exact if_pos ⟨hchar, hn, hbreak⟩

theorem closing_replicate {char : UInt16} (h : isFence char = true) {n : Nat} (hn : 3 ≤ n) :
    closing (List.replicate n char) = some (List.replicate n char) := by
  have hpos : 0 < n := by omega
  have hnil : ([] : Text).head? ≠ some char := nofun
  have hrun := firstRun_append hpos hnil
  have hhead := head?_replicate_append hpos char []
  rw [List.append_nil] at hrun hhead
  unfold closing onlyRun
  rw [hhead, hrun.1, hrun.2, if_pos ⟨h, rfl⟩, Option.filter_some, List.length_replicate,
    decide_eq_true hn, if_pos rfl]

/-! ## Lines -/

/-- A text of at least three lines by its first, its inner and its last lines. -/
theorem eq_of_lines {source first last : Text} {body : List Text} (hbody : body ≠ [])
    (h : source.splitOn newline = first :: (body ++ [last])) :
    source = first ++ newline :: ([newline].intercalate body ++ newline :: last) := by
  have hjoin : [newline].intercalate (source.splitOn newline) = source :=
    List.intercalate_splitOn newline
  rw [h, ← List.cons_append, Text.intercalate_concat, Text.ended_cons,
    Text.ended_eq newline hbody] at hjoin
  rw [← hjoin]
  simp only [List.append_assoc, List.cons_append, List.nil_append]

theorem lines_of_eq {first last body : Text} (hfirst : newline ∉ first)
    (hlast : newline ∉ last) :
    (first ++ newline :: (body ++ newline :: last)).splitOn newline =
      first :: (body.splitOn newline ++ [last]) := by
  rw [List.splitOn_append_cons_self_of_not_mem hfirst, List.splitOn_append_cons_self,
    List.splitOn_eq_singleton hlast]

theorem slice_body (first body last : Text) :
    Vim.Unicode.slice (first ++ newline :: (body ++ newline :: last)) (first.length + 1)
      ((first ++ newline :: (body ++ newline :: last)).length - last.length - 1) = body := by
  have hstop : (first ++ newline :: (body ++ newline :: last)).length - last.length - 1 =
      first.length + 1 + body.length := by
    simp only [List.length_append, List.length_cons]
    omega
  unfold Vim.Unicode.slice
  rw [hstop, List.drop_take]
  have hdrop : (first ++ newline :: (body ++ newline :: last)).drop (first.length + 1) =
      body ++ newline :: last := by
    rw [List.drop_length_add_append]
    rfl
  rw [hdrop, Nat.add_sub_cancel_left, List.take_left]

/-! ## Sources of three lines or more -/

/-- A source that `parse` accepts, by its lines. -/
structure Fenced (source first last marker info close : Text) (body : List Text) : Prop where
  lines : source.splitOn newline = first :: (body ++ [last])
  body_ne : body ≠ []
  opens : opening first = some (marker, info)
  plain : ¬ (marker.head? = some backtick ∧ backtick ∈ info)
  closes : closing last = some close
  same : close.head? = marker.head?

theorem parse_of_fenced {source first last marker info close : Text} {body : List Text}
    (h : Fenced source first last marker info close body) :
    parse source = some ⟨marker, info, close.length, first :: (body ++ [last]),
      first.length + 1, source.length - last.length - 1⟩ := by
  have hlength : ¬ (first :: (body ++ [last])).length < 3 := by
    have hbody := List.length_pos_iff.mpr h.body_ne
    rw [List.length_cons, List.length_append, List.length_singleton]
    omega
  have hlast : (first :: (body ++ [last])).getLast? = some last := by
    rw [← List.cons_append, List.getLast?_concat]
  unfold parse
  dsimp only
  rw [h.lines, if_neg hlength, hlast, List.head?_cons, Option.getD_some, Option.getD_some,
    h.opens]
  dsimp only
  rw [if_neg h.plain, h.closes]
  dsimp only
  rw [if_neg (not_not.mpr h.same)]

theorem exists_ends {lines : List Text} (h : ¬ lines.length < 3) :
    ∃ first body last, lines = first :: (body ++ [last]) ∧ body ≠ [] := by
  cases lines with
  | nil => exact absurd (by decide) h
  | cons first rest =>
    rw [List.length_cons] at h
    have hrest : rest ≠ [] := by
      rintro rfl
      exact h (by decide)
    refine ⟨first, rest.dropLast, rest.getLast hrest, ?_, ?_⟩
    · rw [List.dropLast_concat_getLast]
    · intro hnil
      have hlength := congrArg List.length hnil
      rw [List.length_dropLast, List.length_nil] at hlength
      omega

/-- What `parse` accepts. -/
theorem exists_fenced {source : Text} {parsed : Parsed} (h : parse source = some parsed) :
    ∃ first last marker info close body, Fenced source first last marker info close body := by
  unfold parse at h
  dsimp only at h
  split at h
  · cases h
  · rename_i hlength
    split at h
    · cases h
    · rename_i marker info hopens
      split at h
      · cases h
      · rename_i hplain
        split at h
        · cases h
        · rename_i close hcloses
          split at h
          · cases h
          · rename_i hsame
            obtain ⟨first, body, last, hlines, hbody⟩ := exists_ends hlength
            rw [hlines, List.head?_cons, Option.getD_some] at hopens
            rw [hlines, ← List.cons_append, List.getLast?_concat, Option.getD_some] at hcloses
            exact ⟨first, last, marker, info, close, body, hlines, hbody, hopens, hplain,
              hcloses, not_not.mp hsame⟩

theorem inner_ends (first last : Text) (body : List Text) :
    inner (first :: (body ++ [last])) = body := by
  unfold inner
  rw [List.tail_cons, List.dropLast_concat]

namespace Fenced

variable {source first last marker info close : Text} {body : List Text}

theorem source_eq (h : Fenced source first last marker info close body) :
    source = first ++ newline :: ([newline].intercalate body ++ newline :: last) :=
  eq_of_lines h.body_ne h.lines

theorem codeFence_eq (h : Fenced source first last marker info close body)
    (hclose : marker.length ≤ close.length)
    (hholds : longestClosingRun body (markerChar marker) < marker.length) :
    ∃ fence, codeFence source = some fence ∧ fence.marker = marker ∧ fence.info = trim info ∧
      fence.body = [newline].intercalate body ∧ fence.bodyStart = first.length + 1 := by
  unfold codeFence
  rw [parse_of_fenced h]
  dsimp only
  rw [if_neg (Nat.not_lt.mpr hclose), inner_ends, if_neg (Nat.not_le.mpr hholds)]
  refine ⟨_, rfl, rfl, rfl, ?_, rfl⟩
  rw [h.source_eq]
  exact slice_body first _ last

theorem lengthenFence_eq_none (h : Fenced source first last marker info close body)
    (hholds : longestClosingRun body (markerChar marker) < marker.length) :
    lengthenFence source = none := by
  unfold lengthenFence
  rw [parse_of_fenced h]
  dsimp only
  rw [inner_ends, if_pos (Nat.succ_le_of_lt hholds)]

theorem lengthenFence_eq_some (h : Fenced source first last marker info close body)
    (hholds : ¬ longestClosingRun body (markerChar marker) < marker.length) :
    let needed := longestClosingRun body (markerChar marker) + 1
    let longer := List.replicate needed (markerChar marker)
    lengthenFence source =
      some (longer ++ info ++ newline :: ([newline].intercalate body ++ newline :: longer),
        needed - marker.length) := by
  unfold lengthenFence
  rw [parse_of_fenced h]
  dsimp only
  rw [inner_ends, if_neg (mt Nat.lt_of_succ_le hholds)]

/-- A block that is written with a marker of its own. -/
theorem of_written {char : UInt16} (hchar : isFence char = true) {n : Nat} (hn : 3 ≤ n)
    {info : Text} (hinfo : info.head? ≠ some char) (hbreak : newline ∉ info)
    (hplain : ¬ (char = backtick ∧ backtick ∈ info)) (body : Text) :
    Fenced (List.replicate n char ++ info ++
        newline :: (body ++ newline :: List.replicate n char))
      (List.replicate n char ++ info) (List.replicate n char) (List.replicate n char) info
      (List.replicate n char) (body.splitOn newline) where
  lines := by
    have hmarker := not_mem_replicate hchar n
    refine lines_of_eq (fun hmem => ?_) hmarker
    rcases List.mem_append.mp hmem with hmem | hmem
    · exact hmarker hmem
    · exact hbreak hmem
  body_ne := List.splitOn_ne_nil _ _
  opens := opening_eq_some_iff.mpr ⟨char, n, hchar, hn, hinfo, hbreak, rfl, rfl⟩
  plain := by
    rintro ⟨hhead, hmem⟩
    have hpos : 0 < n := by omega
    have hfirst := head?_replicate_append hpos char []
    rw [List.append_nil, hhead] at hfirst
    exact hplain ⟨(Option.some.inj hfirst).symm, hmem⟩
  closes := closing_replicate hchar hn
  same := rfl

end Fenced

/-! ## Written, lengthened and renamed blocks -/

/-- The first and the last line of a source are fence lines of one character, and the last is
long enough. -/
structure FenceLines (source marker info close : Text) : Prop where
  opens : opening ((source.splitOn newline).head?.getD []) = some (marker, info)
  plain : ¬ (marker.head? = some backtick ∧ backtick ∈ info)
  closes : closing ((source.splitOn newline).getLast?.getD []) = some close
  same : close.head? = marker.head?
  long : marker.length ≤ close.length

/-- Either the source is a code block, or it is lengthened into one with its body. -/
def StaysFenced (source info : Text) : Prop :=
  lengthenFence source = none ∧ (codeFence source).isSome ∨
    ∃ longer added fence, lengthenFence source = some (longer, added) ∧
      codeFence longer = some fence ∧
      fence.body = [newline].intercalate (inner (source.splitOn newline)) ∧
      fence.info = trim info ∧ lengthenFence longer = none

theorem FenceLines.fenced {source marker info close : Text}
    (h : FenceLines source marker info close) (hlength : 3 ≤ (source.splitOn newline).length) :
    ∃ first last body, Fenced source first last marker info close body := by
  obtain ⟨first, body, last, hlines, hbody⟩ := exists_ends (Nat.not_lt.mpr hlength)
  have hopens := h.opens
  have hcloses := h.closes
  rw [hlines, List.head?_cons, Option.getD_some] at hopens
  rw [hlines, ← List.cons_append, List.getLast?_concat, Option.getD_some] at hcloses
  exact ⟨first, last, body, hlines, hbody, hopens, h.plain, hcloses, h.same⟩

theorem staysFenced {source marker info close : Text} (h : FenceLines source marker info close)
    (hlength : 3 ≤ (source.splitOn newline).length) : StaysFenced source info := by
  obtain ⟨first, last, body, hfenced⟩ := h.fenced hlength
  by_cases hholds : longestClosingRun body (markerChar marker) < marker.length
  · obtain ⟨fence, hfence, -⟩ := hfenced.codeFence_eq h.long hholds
    exact Or.inl ⟨hfenced.lengthenFence_eq_none hholds, Option.isSome_of_eq_some hfence⟩
  · obtain ⟨char, n, hchar, hn, hinfo, hbreak, rfl, -⟩ := opening_eq_some_iff.mp hfenced.opens
    have hpos : 0 < n := by omega
    have hhead := head?_replicate_append hpos char []
    rw [List.append_nil] at hhead
    have hmarker := markerChar_replicate hpos char
    have hplain : ¬ (char = backtick ∧ backtick ∈ info) := by
      rintro ⟨rfl, hmem⟩
      exact hfenced.plain ⟨hhead, hmem⟩
    have hsome := hfenced.lengthenFence_eq_some hholds
    dsimp only at hsome
    rw [hmarker, List.length_replicate] at hholds
    rw [hmarker, List.length_replicate] at hsome
    have hneeded : 3 ≤ longestClosingRun body char + 1 := by omega
    have hlonger := Fenced.of_written hchar hneeded hinfo hbreak hplain ([newline].intercalate body)
    have hbody : ([newline].intercalate body).splitOn newline = body := by
      refine List.splitOn_intercalate newline (fun line hline => ?_) hfenced.body_ne
      have hplain := Text.plain_splitOn newline source
      rw [hfenced.lines] at hplain
      exact hplain line (List.mem_cons_of_mem _ (List.mem_append_left _ hline))
    rw [hbody] at hlonger
    have hheld : longestClosingRun body
        (markerChar (List.replicate (longestClosingRun body char + 1) char)) <
          (List.replicate (longestClosingRun body char + 1) char).length := by
      rw [markerChar_replicate (Nat.succ_pos _), List.length_replicate]
      exact Nat.lt_succ_self _
    obtain ⟨fence, hfence, -, hfinfo, hfbody, -⟩ := hlonger.codeFence_eq le_rfl hheld
    refine Or.inr ⟨_, _, fence, hsome, hfence, ?_, hfinfo, hlonger.lengthenFence_eq_none hheld⟩
    rw [hfbody, hfenced.lines, inner_ends]

theorem codeFence_fencedSource {body info : Text} (hbreak : newline ∉ info)
    (htick : backtick ∉ info) :
    ∃ fence, codeFence (fencedSource body info) = some fence ∧ fence.body = body ∧
      fence.info = trim info := by
  have hinfo : info.head? ≠ some backtick := fun h => htick (List.mem_of_mem_head? h)
  have hneeded : 3 ≤ max 3 (longestClosingRun (body.splitOn newline) backtick + 1) :=
    Nat.le_max_left _ _
  have hfence : isFence backtick = true := rfl
  have hfenced := Fenced.of_written hfence hneeded hinfo hbreak (fun h => htick h.2) body
  have hheld : longestClosingRun (body.splitOn newline) (markerChar (List.replicate
      (max 3 (longestClosingRun (body.splitOn newline) backtick + 1)) backtick)) <
        (List.replicate (max 3 (longestClosingRun (body.splitOn newline) backtick + 1))
          backtick).length := by
    rw [markerChar_replicate (by omega), List.length_replicate]
    omega
  obtain ⟨fence, hfence, -, hfinfo, hfbody, -⟩ := hfenced.codeFence_eq le_rfl hheld
  refine ⟨fence, hfence, ?_, hfinfo⟩
  rw [hfbody, List.intercalate_splitOn]

theorem drop_first (first rest : Text) :
    (first ++ newline :: rest).drop (first.length + 1) = rest := by
  rw [List.drop_length_add_append]
  rfl

theorem codeFence_withInfo {source info : Text} {fence : CodeFence}
    (h : codeFence source = some fence) (hbreak : newline ∉ info) (htick : backtick ∉ info)
    (hstart : info.head? ≠ fence.marker.head?) :
    ∃ next, codeFence (withInfo source fence info) = some next ∧ next.body = fence.body ∧
      next.info = trim info := by
  obtain ⟨first, last, marker, own, close, body, hfenced⟩ :
      ∃ first last marker own close body, Fenced source first last marker own close body := by
    cases hparsed : parse source with
    | none =>
      unfold codeFence at h
      rw [hparsed] at h
      cases h
    | some parsed => exact exists_fenced hparsed
  have hclose : marker.length ≤ close.length := by
    unfold codeFence at h
    rw [parse_of_fenced hfenced] at h
    dsimp only at h
    split at h
    · cases h
    · omega
  have hholds : longestClosingRun body (markerChar marker) < marker.length := by
    unfold codeFence at h
    rw [parse_of_fenced hfenced] at h
    dsimp only at h
    rw [if_neg (Nat.not_lt.mpr hclose), inner_ends] at h
    split at h
    · cases h
    · omega
  obtain ⟨found, hfound, hmarker, -, hbody, hbodyStart⟩ := hfenced.codeFence_eq hclose hholds
  obtain rfl := Option.some.inj (hfound.symm.trans h)
  obtain ⟨char, n, hchar, hn, -, -, hreplicate, hfirst⟩ := opening_eq_some_iff.mp hfenced.opens
  have hhead : marker.head? = some char := by
    have hpos : 0 < n := by omega
    have hrun := head?_replicate_append hpos char []
    rwa [List.append_nil, ← hreplicate] at hrun
  have hinfo : info.head? ≠ some char := by rwa [hmarker, hhead] at hstart
  have hopens : opening (marker ++ info) = some (marker, info) :=
    opening_eq_some_iff.mpr ⟨char, n, hchar, hn, hinfo, hbreak, hreplicate, rfl⟩
  have hrest :
      ([newline].intercalate body ++ newline :: last).splitOn newline = body ++ [last] := by
    have hlines := hfenced.lines
    have hplain := Text.plain_splitOn newline source
    rw [hlines] at hplain
    have hnot := (Text.plain_cons.mp hplain).1
    rw [hfenced.source_eq, List.splitOn_append_cons_self_of_not_mem hnot] at hlines
    exact (List.cons.inj hlines).2
  have hnot : newline ∉ marker ++ info := by
    intro hmem
    rcases List.mem_append.mp hmem with hmem | hmem
    · rw [hreplicate] at hmem
      exact not_mem_replicate hchar n hmem
    · exact hbreak hmem
  have hnext :
      Fenced (withInfo source found info) (marker ++ info) last marker info close body := by
    refine ⟨?_, hfenced.body_ne, hopens, fun htwo => htick htwo.2, hfenced.closes, hfenced.same⟩
    unfold withInfo
    rw [hmarker, hbodyStart, hfenced.source_eq, drop_first,
      List.splitOn_append_cons_self_of_not_mem hnot, hrest]
  obtain ⟨next, hfence, -, hninfo, hnbody, -⟩ := hnext.codeFence_eq hclose hholds
  exact ⟨next, hfence, hnbody.trans hbody.symm, hninfo⟩

/-- Writing, lengthening and renaming a block keep it a block with its body. -/
theorem code_fences_agree :
    (∀ body info : Text, newline ∉ info → backtick ∉ info →
      ∃ fence, codeFence (fencedSource body info) = some fence ∧ fence.body = body ∧
        fence.info = trim info) ∧
    (∀ source marker info close, FenceLines source marker info close →
      3 ≤ (source.splitOn newline).length → StaysFenced source info) ∧
    (∀ source fence info, codeFence source = some fence → newline ∉ info → backtick ∉ info →
      info.head? ≠ fence.marker.head? →
        ∃ next, codeFence (withInfo source fence info) = some next ∧ next.body = fence.body ∧
          next.info = trim info) :=
  ⟨fun _ _ hbreak htick => codeFence_fencedSource hbreak htick,
    fun _ _ _ _ hlines hlength => staysFenced hlines hlength,
    fun _ _ _ hfence hbreak htick hstart => codeFence_withInfo hfence hbreak htick hstart⟩

/-- A fence line as a body is written and lengthened, and a block with another body is renamed. -/
theorem code_fences_sample :
    (∃ fence, codeFence (fencedSource [96, 96, 96] [space, 116, 115]) = some fence ∧
      fence.body = [96, 96, 96] ∧ fence.info = [116, 115]) ∧
    StaysFenced [96, 96, 96, 106, 115, newline, 96, 96, 96, newline, 96, 96, 96] [106, 115] ∧
    ∃ next, codeFence (withInfo [96, 96, 96, 106, 115, newline, 97, newline, 96, 96, 96]
        ⟨[96, 96, 96], [106, 115], [97], 6, 7⟩ [116, 115, space]) = some next ∧
      next.body = [97] ∧ next.info = [116, 115] :=
  ⟨code_fences_agree.1 [96, 96, 96] [space, 116, 115] (by decide) (by decide),
    code_fences_agree.2.1 _ [96, 96, 96] [106, 115] [96, 96, 96]
      ⟨by decide, by decide, by decide, by decide, by decide⟩ (by decide),
    code_fences_agree.2.2 _ ⟨[96, 96, 96], [106, 115], [97], 6, 7⟩ [116, 115, space] rfl
      (by decide) (by decide) (by decide)⟩

/-- Two fence lines with nothing between them are no code block. -/
theorem fence_lines_alone :
    ¬ ∀ source marker info close : Text, FenceLines source marker info close →
      StaysFenced source info := by
  intro h
  have hlines : FenceLines [96, 96, 96, 10, 96, 96, 96] [96, 96, 96] [] [96, 96, 96] :=
    ⟨by decide, by decide, by decide, by decide, by decide⟩
  rcases h _ _ _ _ hlines with ⟨-, hfence⟩ | ⟨longer, added, fence, hlonger, -⟩
  · exact absurd hfence (by decide)
  · have hnone : lengthenFence [96, 96, 96, 10, 96, 96, 96] = none := by decide
    rw [hnone] at hlonger
    cases hlonger

end Neoseq.Code
