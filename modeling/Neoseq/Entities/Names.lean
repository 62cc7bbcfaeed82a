import Neoseq.Core.Outlines

/-! The identity of names, on both sides. The client trims, joins runs of white space and puts
the whole name into lower case; the core splits at white space and does so word by word. They
differ in what white space is. -/

namespace Neoseq.Entities

/-! ## White space -/

/-- What `trim` and `\s` take for white space: the white space and the line ends of the
language's grammar. -/
def isJsWhitespace (c : Char) : Bool :=
  (0x09 ≤ c.toNat && c.toNat ≤ 0x0d) || c.toNat == 0x20 || c.toNat == 0xa0 ||
    c.toNat == 0x1680 || (0x2000 ≤ c.toNat && c.toNat ≤ 0x200a) || c.toNat == 0x2028 ||
    c.toNat == 0x2029 || c.toNat == 0x202f || c.toNat == 0x205f || c.toNat == 0x3000 ||
    c.toNat == 0xfeff

/-- `char::is_whitespace`: the property `White_Space`. -/
def isWhitespace (c : Char) : Bool :=
  (0x09 ≤ c.toNat && c.toNat ≤ 0x0d) || c.toNat == 0x20 || c.toNat == 0x85 || c.toNat == 0xa0 ||
    c.toNat == 0x1680 || (0x2000 ≤ c.toNat && c.toNat ≤ 0x200a) || c.toNat == 0x2028 ||
    c.toNat == 0x2029 || c.toNat == 0x202f || c.toNat == 0x205f || c.toNat == 0x3000

/-- The character that only the core takes for white space. -/
def nextLine : Char := '\u0085'

/-- The character that only the client takes for white space. -/
def byteOrderMark : Char := '\ufeff'

theorem isJsWhitespace_eq {c : Char} (hnext : c ≠ nextLine) (hmark : c ≠ byteOrderMark) :
    isJsWhitespace c = isWhitespace c := by
  have hne {n : Nat} {d : Char} (hd : d.toNat = n) (h : c ≠ d) : c.toNat ≠ n := by
    intro hc
    exact h (Char.ext (UInt32.toNat_inj.mp (hc.trans hd.symm)))
  have hnext' : (c.toNat == 0x85) = false := by
    rw [beq_eq_false_iff_ne]
    exact hne rfl hnext
  have hmark' : (c.toNat == 0xfeff) = false := by
    rw [beq_eq_false_iff_ne]
    exact hne rfl hmark
  unfold isJsWhitespace isWhitespace
  rw [hnext', hmark', Bool.or_false, Bool.or_false]

/-! ## Lower case -/

/-- The tables of the case algorithms. -/
structure CaseTables where
  cased : Char → Bool
  caseIgnorable : Char → Bool
  /-- The unconditional mapping. -/
  lower : Char → List Char
  lower_ne_nil : ∀ c, lower c ≠ []
  space : cased ' ' = false ∧ caseIgnorable ' ' = false ∧ lower ' ' = [' ']
  digit : ∀ c, c.isDigit = true → lower c = [c]

variable (tables : CaseTables)

/-- A cased letter comes first, apart from what casing ignores. -/
def casedFirst (text : List Char) : Bool :=
  ((text.dropWhile tables.caseIgnorable).head?).any tables.cased

/-- A sigma at the end of a word has a form of its own. -/
def lowerFrom : (before : List Char) → List Char → List Char
  | _, [] => []
  | before, c :: rest =>
    (if c = 'Σ' then
      [if casedFirst tables before && !casedFirst tables rest then 'ς' else 'σ']
    else tables.lower c) ++ lowerFrom (c :: before) rest

/-- `toLowerCase` and `str::to_lowercase`. -/
def toLowercase (value : String) : String := String.ofList (lowerFrom tables [] value.toList)

/-! ## Names of the client -/

/-- `String.prototype.trim`. -/
def trim (text : List Char) : List Char :=
  ((text.dropWhile isJsWhitespace).reverse.dropWhile isJsWhitespace).reverse

/-- Each run of white space replaced by one space. -/
def joinRuns : (inRun : Bool) → List Char → List Char
  | _, [] => []
  | inRun, c :: rest =>
    if isJsWhitespace c then (if inRun then [] else [' ']) ++ joinRuns true rest
    else c :: joinRuns false rest

def canonicalEntityName (value : String) : String :=
  toLowercase tables (String.ofList (joinRuns false (trim value.toList)))

def numbered (base : String) (suffix : Nat) : String := base ++ " " ++ toString suffix

/-- The loop over the suffixes, as far as the fuel goes. -/
def firstAvailable (occupied : List String) (base : String) : (fuel suffix : Nat) → Option String
  | 0, _ => none
  | fuel + 1, suffix =>
    if canonicalEntityName tables (numbered base suffix) ∈ occupied then
      firstAvailable occupied base fuel (suffix + 1)
    else some (numbered base suffix)

def nextAvailableEntityName (base : String) (names : List String) (fuel : Nat) : Option String :=
  let occupied := names.map (canonicalEntityName tables)
  if canonicalEntityName tables base ∉ occupied then some base
  else firstAvailable tables occupied base fuel 2

/-! ## Words -/

section Words
variable {α : Type} (isSpace : α → Bool)

/-- The parts of a text between its white space. -/
def words (text : List α) : List (List α) :=
  (text.splitOnP isSpace).filter fun word => !word.isEmpty

variable {isSpace}

theorem words_nil : words isSpace [] = [] := rfl

theorem words_cons_space {c : α} (hc : isSpace c = true) (rest : List α) :
    words isSpace (c :: rest) = words isSpace rest := by
  unfold words
  rw [List.splitOnP_cons_eq_if_modifyHead, if_pos hc]
  rfl

/-- White space ends a word and begins no other. -/
theorem words_append_space {c : α} (hc : isSpace c = true) (text rest : List α) :
    words isSpace (text ++ c :: rest) = words isSpace text ++ words isSpace rest := by
  unfold words
  rw [List.splitOnP_append_cons text rest hc, List.filter_append]

theorem words_append_spaces {spaces : List α} (hspaces : ∀ c ∈ spaces, isSpace c = true)
    (text : List α) : words isSpace (text ++ spaces) = words isSpace text := by
  induction spaces generalizing text with
  | nil => rw [List.append_nil]
  | cons c spaces ih =>
    obtain ⟨hc, hspaces⟩ := List.forall_mem_cons.mp hspaces
    have hnone := ih hspaces []
    rw [List.nil_append, words_nil] at hnone
    rw [words_append_space hc, hnone, List.append_nil]

theorem words_eq_singleton {word : List α} (hword : ∀ c ∈ word, isSpace c = false)
    (hne : word ≠ []) : words isSpace word = [word] := by
  unfold words
  rw [List.splitOnP_eq_singleton hword]
  cases word with
  | nil => exact absurd rfl hne
  | cons c word => rfl

theorem words_eq_nil {text : List α} :
    words isSpace text = [] ↔ ∀ c ∈ text, isSpace c = true := by
  induction text with
  | nil => exact iff_of_true rfl nofun
  | cons c rest ih =>
    rw [List.forall_mem_cons]
    cases hc : isSpace c with
    | true => rw [words_cons_space hc, ih, and_iff_right rfl]
    | false =>
      refine iff_of_false (fun h => ?_) (fun h => nomatch h.1)
      unfold words at h
      rw [List.splitOnP_cons_eq_if_modifyHead, hc, if_neg Bool.false_ne_true] at h
      obtain ⟨first, parts, hparts⟩ :=
        List.exists_cons_of_ne_nil (List.splitOnP_ne_nil isSpace rest)
      rw [hparts] at h
      cases h

theorem words_congr {isSpace' : α → Bool} {text : List α}
    (h : ∀ c ∈ text, isSpace c = isSpace' c) : words isSpace text = words isSpace' text := by
  unfold words
  congr 1
  induction text with
  | nil => rfl
  | cons c rest ih =>
    obtain ⟨hc, hrest⟩ := List.forall_mem_cons.mp h
    rw [List.splitOnP_cons_eq_if_modifyHead, List.splitOnP_cons_eq_if_modifyHead, hc, ih hrest]

end Words

/-! ## The client's words -/

theorem words_trim (text : List Char) :
    words isJsWhitespace (trim text) = words isJsWhitespace text := by
  have hstart (text : List Char) :
      words isJsWhitespace (text.dropWhile isJsWhitespace) = words isJsWhitespace text := by
    induction text with
    | nil => rfl
    | cons c rest ih =>
      rw [List.dropWhile_cons]
      split
      · next hc => rw [ih, words_cons_space hc]
      · rfl
  unfold trim
  generalize hkept : text.dropWhile isJsWhitespace = kept
  rw [← hstart text, hkept]
  have hsplit : kept = (kept.reverse.dropWhile isJsWhitespace).reverse ++
      (kept.reverse.takeWhile isJsWhitespace).reverse := by
    rw [← List.reverse_append, List.takeWhile_append_dropWhile, List.reverse_reverse]
  conv_rhs => rw [hsplit]
  refine (words_append_spaces (fun c hc => ?_) _).symm
  exact List.mem_takeWhile_imp (List.mem_reverse.mp hc)

/-- No white space is left at the end. -/
def EndsClean (text : List Char) : Prop := ∀ c ∈ text.getLast?, isJsWhitespace c = false

theorem endsClean_trim (text : List Char) : EndsClean (trim text) := by
  intro c hc
  unfold trim at hc
  rw [List.getLast?_reverse] at hc
  have := List.head?_dropWhile_not isJsWhitespace (text.dropWhile isJsWhitespace).reverse
  rw [hc] at this
  exact this

theorem EndsClean.tail {c : Char} {rest : List Char} (h : EndsClean (c :: rest)) :
    EndsClean rest := by
  intro d hd
  refine h d ?_
  cases rest with
  | nil => cases hd
  | cons d' rest => rwa [List.getLast?_cons_cons]

/-- Words, one space between them. -/
abbrev spaced (parts : List (List Char)) : List Char := [' '].intercalate parts

theorem spaced_cons {word : List Char} {parts : List (List Char)} (h : parts ≠ []) :
    spaced (word :: parts) = word ++ ' ' :: spaced parts := by
  cases parts with
  | nil => exact absurd rfl h
  | cons part parts => simp [spaced, List.intercalate]

theorem words_cons_letter {c : Char} (hc : isJsWhitespace c = false) (rest : List Char) :
    words isJsWhitespace (c :: rest) =
      if rest.head?.all isJsWhitespace then [c] :: words isJsWhitespace rest
      else (words isJsWhitespace rest).modifyHead (c :: ·) := by
  cases rest with
  | nil => exact words_eq_singleton (by simpa using hc) (List.cons_ne_nil c [])
  | cons d rest =>
    cases hd : isJsWhitespace d with
    | true =>
      have hsplit := words_append_space hd [c] rest
      rw [List.singleton_append, words_eq_singleton (by simpa using hc) (List.cons_ne_nil c [])]
        at hsplit
      rw [hsplit, words_cons_space hd]
      simp [hd]
    | false =>
      have hne := List.splitOnP_ne_nil isJsWhitespace rest
      obtain ⟨first, parts, hparts⟩ := List.exists_cons_of_ne_nil hne
      unfold words
      rw [List.splitOnP_cons_eq_if_modifyHead, List.splitOnP_cons_eq_if_modifyHead, hc, hd, hparts]
      simp [hd]

/-- Joining the runs of a text that ends clean leaves its words, after a space where it does not
begin clean. -/
theorem joinRuns_eq {text : List Char} (h : EndsClean text) :
    joinRuns true text = spaced (words isJsWhitespace text) ∧
      joinRuns false text = (if text.head?.any isJsWhitespace then [' '] else []) ++
        spaced (words isJsWhitespace text) := by
  induction text with
  | nil => exact ⟨rfl, rfl⟩
  | cons c rest ih =>
    obtain ⟨htrue, hfalse⟩ := ih h.tail
    unfold joinRuns
    cases hc : isJsWhitespace c with
    | true =>
      rw [words_cons_space hc, htrue]
      simp [hc]
    | false =>
      have hletter : c :: joinRuns false rest = spaced (words isJsWhitespace (c :: rest)) := by
        rw [words_cons_letter hc, hfalse]
        cases rest with
        | nil => simp [words_nil, spaced]
        | cons d rest =>
          have hsome : words isJsWhitespace (d :: rest) ≠ [] := by
            intro hnone
            have hlast := h.tail
            obtain ⟨last, hlastEq⟩ : ∃ last, (d :: rest).getLast? = some last :=
              ⟨_, List.getLast?_eq_some_getLast (List.cons_ne_nil d rest)⟩
            have hspace := words_eq_nil.mp hnone last (List.mem_of_getLast? hlastEq)
            rw [hlast last hlastEq] at hspace
            cases hspace
          cases hd : isJsWhitespace d with
          | true =>
            simp only [List.head?_cons, Option.any_some, Option.all_some, hd, if_true]
            rw [spaced_cons hsome]
            rfl
          | false =>
            simp only [List.head?_cons, Option.any_some, Option.all_some, hd, Bool.false_eq_true,
              if_false, List.nil_append]
            obtain ⟨first, parts, hparts⟩ := List.exists_cons_of_ne_nil hsome
            rw [hparts]
            cases parts with
            | nil => simp [spaced]
            | cons part parts => simp [spaced, List.intercalate]
      simp [hc, hletter]

/-! ## Lower case word by word -/

variable {tables : CaseTables}

theorem casedFirst_space (text rest : List Char) :
    casedFirst tables (text ++ ' ' :: rest) = casedFirst tables text := by
  unfold casedFirst
  obtain ⟨hcased, hignorable, -⟩ := tables.space
  induction text with
  | nil => simp [hcased, hignorable]
  | cons c text ih =>
    rw [List.cons_append, List.dropWhile_cons, List.dropWhile_cons]
    split
    · exact ih
    · rfl

theorem lowerFrom_space (before text rest : List Char) :
    lowerFrom tables before (text ++ ' ' :: rest) =
      lowerFrom tables before text ++ ' ' :: lowerFrom tables [] rest := by
  have hbefore (text : List Char) (before before' : List Char) :
      lowerFrom tables (before ++ ' ' :: before') text = lowerFrom tables before text := by
    induction text generalizing before with
    | nil => rfl
    | cons c text ih =>
      rw [lowerFrom, lowerFrom, casedFirst_space, ← List.cons_append, ih]
  induction text generalizing before with
  | nil =>
    obtain ⟨-, -, hspace⟩ := tables.space
    have hnew := hbefore rest [] before
    rw [List.nil_append] at hnew
    show lowerFrom tables before (' ' :: rest) = ' ' :: lowerFrom tables [] rest
    rw [lowerFrom, if_neg (by decide), hspace, hnew]
    rfl
  | cons c text ih =>
    rw [List.cons_append, lowerFrom, casedFirst_space, ih, lowerFrom, List.append_assoc]

theorem lowerFrom_spaced (parts : List (List Char)) :
    lowerFrom tables [] (spaced parts) = spaced (parts.map (lowerFrom tables [])) := by
  induction parts with
  | nil => rfl
  | cons part parts ih =>
    cases parts with
    | nil => simp [spaced, List.intercalate]
    | cons next parts =>
      have hne : (next :: parts).map (lowerFrom tables []) ≠ [] := List.cons_ne_nil _ _
      rw [spaced_cons (List.cons_ne_nil next parts), lowerFrom_space, ih,
        List.map_cons (l := next :: parts),
        spaced_cons hne]

theorem head_trim (text : List Char) : (trim text).head?.any isJsWhitespace = false := by
  unfold trim
  generalize hkept : text.dropWhile isJsWhitespace = kept
  have hsplit : kept = (kept.reverse.dropWhile isJsWhitespace).reverse ++
      (kept.reverse.takeWhile isJsWhitespace).reverse := by
    rw [← List.reverse_append, List.takeWhile_append_dropWhile, List.reverse_reverse]
  cases htrimmed : (kept.reverse.dropWhile isJsWhitespace).reverse with
  | nil => rfl
  | cons c rest =>
    rw [htrimmed] at hsplit
    have hfirst := List.head?_dropWhile_not isJsWhitespace text
    rw [hkept, hsplit] at hfirst
    exact hfirst

/-- The canonical name is the words in lower case, one space between them. -/
theorem toList_canonicalEntityName (value : String) :
    (canonicalEntityName tables value).toList =
      spaced ((words isJsWhitespace value.toList).map (lowerFrom tables [])) := by
  unfold canonicalEntityName toLowercase
  rw [String.toList_ofList, String.toList_ofList, (joinRuns_eq (endsClean_trim value.toList)).2,
    head_trim, words_trim]
  exact lowerFrom_spaced _

/-! ## Names of the core -/

/-- The core with its own white space, in the same tables. -/
def withText (tables : CaseTables) (host : Core.Host) : Core.Host :=
  { host with toLowercase := toLowercase tables, isWhitespace := isWhitespace }

variable {host : Core.Host}

theorem toList_core_canonicalEntityName (host : Core.Host) (value : String) :
    (Core.canonicalEntityName (withText tables host) value).toList =
      spaced ((words isWhitespace value.toList).map (lowerFrom tables [])) := by
  unfold Core.canonicalEntityName
  rw [String.toList_intercalate]
  show [' '].intercalate _ = _
  congr 1
  show List.map String.toList (List.filterMap _ (value.toList.splitOnP isWhitespace)) = _
  unfold words
  generalize value.toList.splitOnP isWhitespace = parts
  induction parts with
  | nil => rfl
  | cons part parts ih =>
    cases part with
    | nil => exact ih
    | cons c part =>
      show (toLowercase tables (String.ofList (c :: part))).toList :: List.map _ _ =
        lowerFrom tables [] (c :: part) :: List.map _ _
      rw [ih, toLowercase, String.toList_ofList, String.toList_ofList]

theorem lowerFrom_ne_nil {before text : List Char} (h : text ≠ []) :
    lowerFrom tables before text ≠ [] := by
  cases text with
  | nil => exact absurd rfl h
  | cons c text =>
    unfold lowerFrom
    split
    · exact List.cons_ne_nil _ _
    · exact List.append_ne_nil_of_left_ne_nil (tables.lower_ne_nil c) _

theorem spaced_lower_eq_nil (tables : CaseTables) {isSpace : Char → Bool} {text : List Char} :
    spaced ((words isSpace text).map (lowerFrom tables [])) = [] ↔
      ∀ c ∈ text, isSpace c = true := by
  rw [← words_eq_nil]
  constructor
  · intro h
    cases hwords : words isSpace text with
    | nil => rfl
    | cons word parts =>
      have hword : word ≠ [] := by
        have hmem : word ∈ words isSpace text := hwords ▸ List.mem_cons_self
        intro hempty
        subst hempty
        exact absurd (List.mem_filter.mp hmem).2 (by decide)
      rw [hwords] at h
      cases parts with
      | nil =>
        have hlower : lowerFrom tables [] word ≠ [] := lowerFrom_ne_nil hword
        exact absurd (by simpa [spaced] using h) hlower
      | cons part parts =>
        rw [List.map_cons, spaced_cons (by simp)] at h
        exact absurd (List.append_eq_nil_iff.mp h).2 (List.cons_ne_nil _ _)
  · intro h
    rw [h]
    rfl

/-- Neither of the characters that one side only takes for white space. -/
def Plain (value : String) : Prop := nextLine ∉ value.toList ∧ byteOrderMark ∉ value.toList

theorem canonicalEntityName_eq (host : Core.Host) {value : String} (h : Plain value) :
    canonicalEntityName tables value = Core.canonicalEntityName (withText tables host) value := by
  refine String.toList_injective ?_
  rw [toList_canonicalEntityName, toList_core_canonicalEntityName]
  congr 2
  refine words_congr fun c hc => isJsWhitespace_eq ?_ ?_
  · exact fun heq => h.1 (heq ▸ hc)
  · exact fun heq => h.2 (heq ▸ hc)

/-! ## Numbered names -/

theorem toString_isDigit {n : Nat} {c : Char} (hc : c ∈ (toString n).toList) :
    c.isDigit = true := by
  rw [Nat.toString_eq_ofList_toDigits, String.toList_ofList] at hc
  exact Nat.isDigit_of_mem_toDigits (by decide) (by decide) hc

theorem isJsWhitespace_of_isDigit {c : Char} (hc : c.isDigit = true) :
    isJsWhitespace c = false := by
  have hrange : 48 ≤ c.toNat ∧ c.toNat ≤ 57 := by
    simpa [Char.isDigit, UInt32.le_iff_toNat_le] using hc
  unfold isJsWhitespace
  simp only [Bool.or_eq_false_iff, Bool.and_eq_false_iff, decide_eq_false_iff_not,
    beq_eq_false_iff_ne]
  omega

theorem lowerFrom_digits {before text : List Char} (h : ∀ c ∈ text, c.isDigit = true) :
    lowerFrom tables before text = text := by
  induction text generalizing before with
  | nil => rfl
  | cons c text ih =>
    obtain ⟨hc, htext⟩ := List.forall_mem_cons.mp h
    have hsigma : c ≠ 'Σ' := by
      rintro rfl
      exact absurd hc (by decide)
    rw [lowerFrom, if_neg hsigma, tables.digit c hc, ih htext]
    rfl

theorem spaced_concat (parts : List (List Char)) :
    ∃ before, ∀ last, spaced (parts ++ [last]) = before ++ last := by
  induction parts with
  | nil => exact ⟨[], fun last => by simp [spaced]⟩
  | cons part parts ih =>
    obtain ⟨before, hbefore⟩ := ih
    refine ⟨part ++ ' ' :: before, fun last => ?_⟩
    rw [List.cons_append, spaced_cons (by simp), hbefore, List.append_assoc, List.cons_append]

/-- Names with different numbers are different names. -/
theorem canonicalEntityName_numbered (base : String) :
    Function.Injective fun suffix => canonicalEntityName tables (numbered base suffix) := by
  obtain ⟨before, hbefore⟩ :=
    spaced_concat ((words isJsWhitespace base.toList).map (lowerFrom tables []))
  have hname (suffix : Nat) : (canonicalEntityName tables (numbered base suffix)).toList =
      before ++ (toString suffix).toList := by
    have hdigits : ∀ c ∈ (toString suffix).toList, c.isDigit = true := fun c => toString_isDigit
    have hne : (toString suffix).toList ≠ [] := by
      rw [Nat.toString_eq_ofList_toDigits, String.toList_ofList]
      exact Nat.toDigits_ne_nil
    have hwords : words isJsWhitespace (numbered base suffix).toList =
        words isJsWhitespace base.toList ++ [(toString suffix).toList] := by
      have htext : (numbered base suffix).toList =
          base.toList ++ ' ' :: (toString suffix).toList := by
        simp [numbered]
      rw [htext, words_append_space (by decide)]
      congr 1
      exact words_eq_singleton (fun c hc => isJsWhitespace_of_isDigit (hdigits c hc)) hne
    rw [toList_canonicalEntityName, hwords, List.map_append, List.map_singleton,
      lowerFrom_digits hdigits, hbefore]
  intro suffix suffix' h
  have hlist := congrArg String.toList h
  rw [hname, hname] at hlist
  have hdigits := List.append_cancel_left hlist
  rw [Nat.toString_eq_ofList_toDigits, Nat.toString_eq_ofList_toDigits, String.toList_ofList,
    String.toList_ofList] at hdigits
  have hnumber := congrArg (fun digits => Nat.ofDigitChars 10 digits 0) hdigits
  rwa [Nat.ofDigitChars_ten_toDigits, Nat.ofDigitChars_ten_toDigits] at hnumber

/-- With more fuel than there are names the search ends at a free one. -/
theorem firstAvailable_eq_some {occupied : List String} {fuel : Nat} (base : String)
    (suffix : Nat) (hfuel : occupied.length < fuel) :
    ∃ found, suffix ≤ found ∧
      firstAvailable tables occupied base fuel suffix = some (numbered base found) ∧
      canonicalEntityName tables (numbered base found) ∉ occupied := by
  have hsearch (fuel suffix : Nat) :
      (∃ found, suffix ≤ found ∧
        firstAvailable tables occupied base fuel suffix = some (numbered base found) ∧
        canonicalEntityName tables (numbered base found) ∉ occupied) ∨
      ∀ i, suffix ≤ i → i < suffix + fuel →
        canonicalEntityName tables (numbered base i) ∈ occupied := by
    induction fuel generalizing suffix with
    | zero => exact .inr fun i hle hlt => by omega
    | succ fuel ih =>
      unfold firstAvailable
      split
      · next hoccupied =>
        rcases ih (suffix + 1) with ⟨found, hle, hfound, hfree⟩ | hall
        · exact .inl ⟨found, by omega, hfound, hfree⟩
        · refine .inr fun i hle hlt => ?_
          rcases Nat.eq_or_lt_of_le hle with rfl | hle
          · exact hoccupied
          · exact hall i hle (by omega)
      · next hfree => exact .inl ⟨suffix, Nat.le_refl suffix, rfl, hfree⟩
  refine (hsearch fuel suffix).resolve_right fun hall => ?_
  -- all the numbered names are different, so there are no more of them than names
  have hcard := Finset.card_le_card_of_injOn
    (fun i => canonicalEntityName tables (numbered base (suffix + i)))
    (s := Finset.range fuel) (t := occupied.toFinset) ?_ ?_
  · rw [Finset.card_range] at hcard
    have := List.toFinset_card_le occupied
    omega
  · intro i hi
    have hlt : i < fuel := by simpa using hi
    simpa using hall (suffix + i) (by omega) (by omega)
  · intro i _ j _ h
    have := canonicalEntityName_numbered base h
    omega

/-- The name that is offered is one that no other name has. -/
theorem nextAvailableEntityName_eq_some (tables : CaseTables) (base : String)
    {names : List String} {fuel : Nat}
    (hfuel : names.length < fuel) :
    ∃ name, nextAvailableEntityName tables base names fuel = some name ∧
      (name = base ∨ ∃ suffix, 2 ≤ suffix ∧ name = numbered base suffix) ∧
      ∀ other ∈ names,
        canonicalEntityName tables other ≠ canonicalEntityName tables name := by
  have hfree {name : String}
      (h : canonicalEntityName tables name ∉ names.map (canonicalEntityName tables)) :
      ∀ other ∈ names, canonicalEntityName tables other ≠ canonicalEntityName tables name :=
    fun other hother heq => h (heq ▸ List.mem_map_of_mem hother)
  unfold nextAvailableEntityName
  dsimp only
  split
  · next h => exact ⟨base, rfl, .inl rfl, hfree h⟩
  · have hlength : (names.map (canonicalEntityName tables)).length < fuel := by
      rwa [List.length_map]
    obtain ⟨found, hle, hfound, hnew⟩ := firstAvailable_eq_some base 2 hlength
    exact ⟨_, hfound, .inr ⟨found, hle, rfl⟩, hfree hnew⟩

/-! ## Both sides -/

/-- Over the texts of some characters the two sides have the same names apart, the same names
empty, and what the client offers is free for the core. -/
structure Agree (tables : CaseTables) (host : Core.Host) (letters : Char → Prop) : Prop where
  same : ∀ left right : String,
    (∀ c ∈ left.toList, letters c) → (∀ c ∈ right.toList, letters c) →
    (canonicalEntityName tables left = canonicalEntityName tables right ↔
      Core.canonicalEntityName (withText tables host) left =
        Core.canonicalEntityName (withText tables host) right)
  empty : ∀ value : String, (∀ c ∈ value.toList, letters c) →
    (canonicalEntityName tables value = "" ↔
      Core.canonicalEntityName (withText tables host) value = "")
  free : ∀ (base : String) (names : List String) (fuel : Nat), names.length < fuel →
    (∀ c ∈ base.toList, letters c) → (∀ name ∈ names, ∀ c ∈ name.toList, letters c) →
    ∃ name, nextAvailableEntityName tables base names fuel = some name ∧
      ∀ other ∈ names, Core.canonicalEntityName (withText tables host) other ≠
        Core.canonicalEntityName (withText tables host) name

theorem canonicalEntityName_eq_empty {value : String} :
    canonicalEntityName tables value = "" ↔ ∀ c ∈ value.toList, isJsWhitespace c = true := by
  rw [← spaced_lower_eq_nil tables, ← toList_canonicalEntityName,
    String.toList_eq_nil_iff]

theorem core_canonicalEntityName_eq_empty {value : String} :
    Core.canonicalEntityName (withText tables host) value = "" ↔
      ∀ c ∈ value.toList, isWhitespace c = true := by
  rw [← spaced_lower_eq_nil tables, ← toList_core_canonicalEntityName host,
    String.toList_eq_nil_iff]

/-- The search always ends at a name that is free for the client, and the two sides agree on
the texts of exactly those characters that both or neither take for white space. -/
theorem agree_iff (tables : CaseTables) (host : Core.Host) :
    (∀ (base : String) (names : List String), ∃ name,
      nextAvailableEntityName tables base names (names.length + 1) = some name ∧
      ∀ other ∈ names, canonicalEntityName tables other ≠ canonicalEntityName tables name) ∧
    ∀ letters : Char → Prop,
      Agree tables host letters ↔ ¬letters nextLine ∧ ¬letters byteOrderMark := by
  refine ⟨fun base names => ?_, fun letters => ⟨fun h => ⟨fun hnext => ?_, fun hmark => ?_⟩, ?_⟩⟩
  · obtain ⟨name, hname, -, hfree⟩ := nextAvailableEntityName_eq_some tables base
      (Nat.lt_succ_self names.length)
    exact ⟨name, hname, hfree⟩
  · have hempty := (h.empty "\u0085" (by simpa [nextLine] using hnext)).mpr
      (core_canonicalEntityName_eq_empty.mpr (by simp [isWhitespace]))
    have hspace := canonicalEntityName_eq_empty.mp hempty '\u0085' (by simp)
    simp [isJsWhitespace] at hspace
  · have hempty := (h.empty "\ufeff" (by simpa [byteOrderMark] using hmark)).mp
      (canonicalEntityName_eq_empty.mpr (by simp [isJsWhitespace]))
    have hspace := core_canonicalEntityName_eq_empty.mp hempty '\ufeff' (by simp)
    simp [isWhitespace] at hspace
  · rintro ⟨hnext, hmark⟩
    have hplain {value : String} (h : ∀ c ∈ value.toList, letters c) : Plain value :=
      ⟨fun hc => hnext (h _ hc), fun hc => hmark (h _ hc)⟩
    refine ⟨fun left right hleft hright => ?_, fun value hvalue => ?_, ?_⟩
    · rw [canonicalEntityName_eq host (hplain hleft),
        canonicalEntityName_eq host (hplain hright)]
    · rw [canonicalEntityName_eq host (hplain hvalue)]
    · intro base names fuel hfuel hbase hnames
      obtain ⟨name, hname, hform, hfree⟩ :=
        nextAvailableEntityName_eq_some tables base hfuel
      refine ⟨name, hname, fun other hother => ?_⟩
      have hplainName : Plain name := by
        rcases hform with rfl | ⟨suffix, -, rfl⟩
        · exact hplain hbase
        · have htext : (numbered base suffix).toList =
              base.toList ++ ' ' :: (toString suffix).toList := by
            simp [numbered]
          have hnot {c : Char} (hc : c ∉ base.toList) (hspace : c ≠ ' ')
              (hdigit : c.isDigit = false) : c ∉ (numbered base suffix).toList := by
            rw [htext, List.mem_append, List.mem_cons]
            rintro (h | h | h)
            · exact hc h
            · exact hspace h
            · rw [toString_isDigit h] at hdigit
              cases hdigit
          exact ⟨hnot (hplain hbase).1 (by decide) (by decide),
            hnot (hplain hbase).2 (by decide) (by decide)⟩
      rw [← canonicalEntityName_eq host (hplain (hnames other hother)),
        ← canonicalEntityName_eq host hplainName]
      exact hfree other hother

/-! ## The line end of the core -/

/-- The tables for the letters of English. -/
def asciiTables : CaseTables where
  cased c := c.isAlpha
  caseIgnorable _ := false
  lower c := [c.toLower]
  lower_ne_nil _ := List.cons_ne_nil _ _
  space := ⟨by decide, rfl, by decide⟩
  digit c hc := by
    have hrange : 48 ≤ c.toNat ∧ c.toNat ≤ 57 := by
      simpa [Char.isDigit, UInt32.le_iff_toNat_le] using hc
    have hupper : ¬(c.val ≥ 'A'.val ∧ c.val ≤ 'Z'.val) := by
      rintro ⟨hle, -⟩
      have hnat : 65 ≤ c.toNat := by simpa [UInt32.le_iff_toNat_le] using hle
      omega
    unfold Char.toLower
    rw [dif_neg hupper]

/-- The client tells two names apart that are one for the core, and offers the one beside the
other. -/
theorem not_agree_nextLine :
    (canonicalEntityName asciiTables "a\u0085b" ≠ canonicalEntityName asciiTables "a b" ∧
      Core.canonicalEntityName (withText asciiTables Core.sampleHost) "a\u0085b" =
        Core.canonicalEntityName (withText asciiTables Core.sampleHost) "a b") ∧
    nextAvailableEntityName asciiTables "a\u0085b" ["a b"] 2 = some "a\u0085b" := by
  refine ⟨⟨?_, ?_⟩, ?_⟩ <;> decide

end Neoseq.Entities
