import Neoseq.Vim.Graphemes

/-! The word motions with a count, and what they make of the same count in two parts. -/

namespace Neoseq.Vim

/-! ## Loops over graphemes -/

def kindAt (items : List Grapheme) (index : Nat) : Option WordClass :=
  items[index]?.map Grapheme.kind

/-- The loop that goes on over graphemes of such a class. -/
def advanceOver (p : WordClass → Bool) : List Grapheme → Nat → Nat
  | [], index => index
  | item :: items, index => if p item.kind then advanceOver p items (index + 1) else index

/-- `while` the graphemes from an index on are of such a class. -/
def advance (items : List Grapheme) (p : WordClass → Bool) (index : Nat) : Nat :=
  advanceOver p (items.drop index) index

def isSpace (kind : WordClass) : Bool := kind = .space

/-- The index of the last grapheme of the run at an index. -/
def runEnd (items : List Grapheme) (index : Nat) : Nat :=
  advance items (fun kind => kindAt items index = some kind) (index + 1) - 1

/-- One round of `wordForward`, unless it runs past the end. -/
def forwardStep (items : List Grapheme) (index : Nat) : Option Nat :=
  let index := advance items (fun kind => kindAt items index = some kind) index
  let index := advance items isSpace index
  if index ≥ items.length then none else some index

def forwardSteps (items : List Grapheme) : (count index : Nat) → Option Nat
  | 0, index => some index
  | count + 1, index => (forwardStep items index).bind (forwardSteps items count)

/-- `while` the graphemes before an index are spaces, to the left. -/
def retreat (items : List Grapheme) : Nat → Nat
  | 0 => 0
  | index + 1 => if kindAt items index = some .space then retreat items index else index + 1

/-- The index of the first grapheme of a run of a class. -/
def runStart (items : List Grapheme) (kind : Option WordClass) : Nat → Nat
  | 0 => 0
  | index + 1 => if kindAt items index = kind then runStart items kind index else index + 1

/-- The rounds of `wordBackward`; the index is one less, so that it can stand before all. -/
def backwardSteps (items : List Grapheme) : (count behind : Nat) → Nat
  | 0, behind => behind
  | _ + 1, 0 => 0
  | count + 1, behind + 1 =>
    match retreat items (behind + 1) with
    | 0 => 0
    | index + 1 =>
      let start := runStart items (kindAt items index) index
      if count = 0 then start + 1 else backwardSteps items count start

/-- One round of `wordEnd`, unless it runs past the end. -/
def endStep (items : List Grapheme) (index : Nat) : Option Nat :=
  let word := advance items isSpace index
  let index :=
    if word = index ∧ word < items.length ∧ kindAt items word ≠ some .space ∧
        kindAt items (word + 1) ≠ kindAt items word then
      advance items isSpace (word + 1)
    else word
  if index ≥ items.length then none else some (runEnd items index)

def endSteps (items : List Grapheme) : (count index : Nat) → Option Nat
  | 0, index => some index
  | count + 1, index =>
    match endStep items index with
    | none => none
    | some index => if count = 0 then some index else endSteps items count (index + 1)

/-! ## Motions -/

namespace Unicode

variable (unicode : Unicode)

def wordForward (value : Text) (position count : Nat) : Nat :=
  let items := unicode.graphemes value
  match graphemeIndexAt items position with
  | none => value.length
  | some index =>
    match forwardSteps items count index with
    | none => value.length
    | some index => (items[index]?.map Grapheme.start).getD value.length

def wordBackward (value : Text) (position count : Nat) : Nat :=
  let items := unicode.graphemes value
  let behind := (items.findIdx? fun item => item.start ≥ position).getD items.length
  match backwardSteps items count behind with
  | 0 => 0
  | index + 1 => (items[index]?.map Grapheme.start).getD 0

def wordEnd (value : Text) (position count : Nat) : Nat :=
  let items := unicode.graphemes value
  match graphemeIndexAt items position with
  | none => value.length - 1
  | some index =>
    match endSteps items count index with
    | none => (items.getLast?.map Grapheme.start).getD 0
    | some index => (items[min index (items.length - 1)]?.map Grapheme.start).getD value.length

end Unicode

/-! ## Where the loops stop -/

section
variable {items : List Grapheme} {p : WordClass → Bool}

theorem kindAt_eq_none {index : Nat} : kindAt items index = none ↔ items.length ≤ index := by
  unfold kindAt
  rw [Option.map_eq_none_iff, List.getElem?_eq_none_iff]

theorem lt_of_kindAt {index : Nat} {kind : WordClass} (h : kindAt items index = some kind) :
    index < items.length := by
  by_contra hge
  rw [kindAt_eq_none.mpr (Nat.le_of_not_lt hge)] at h
  cases h

theorem advance_of_none {index : Nat} (h : kindAt items index = none) :
    advance items p index = index := by
  unfold advance
  rw [List.drop_eq_nil_of_le (kindAt_eq_none.mp h)]
  rfl

theorem advance_of_some {index : Nat} {kind : WordClass} (h : kindAt items index = some kind) :
    advance items p index = if p kind then advance items p (index + 1) else index := by
  have hlt := lt_of_kindAt h
  unfold kindAt at h
  rw [List.getElem?_eq_getElem hlt] at h
  unfold advance
  rw [List.drop_eq_getElem_cons hlt, advanceOver, Option.some.inj h]

theorem advance_spec (items : List Grapheme) (p : WordClass → Bool) (index : Nat) :
    index ≤ advance items p index ∧
      (∀ j, index ≤ j → j < advance items p index →
        ∃ kind, kindAt items j = some kind ∧ p kind = true) ∧
      ∀ kind, kindAt items (advance items p index) = some kind → p kind = false := by
  induction hn : items.length - index generalizing index with
  | zero =>
    have hnone : kindAt items index = none := kindAt_eq_none.mpr (by omega)
    rw [advance_of_none hnone]
    refine ⟨Nat.le_refl _, fun j hle hlt => by omega, fun kind hkind => ?_⟩
    rw [hnone] at hkind
    cases hkind
  | succ n ih =>
    cases hkind : kindAt items index with
    | none =>
      have := kindAt_eq_none.mp hkind
      omega
    | some kind =>
      rw [advance_of_some hkind]
      split
      · next hp =>
        obtain ⟨hle, hover, hstop⟩ := ih (index + 1) (by omega)
        refine ⟨by omega, fun j hj hlt => ?_, hstop⟩
        rcases Nat.eq_or_lt_of_le hj with rfl | hj
        · exact ⟨kind, hkind, hp⟩
        · exact hover j hj hlt
      · next hp =>
        refine ⟨Nat.le_refl _, fun j hle hlt => by omega, fun other hother => ?_⟩
        rw [hkind] at hother
        rw [← Option.some.inj hother]
        exact Bool.eq_false_iff.mpr hp

theorem le_advance (items : List Grapheme) (p : WordClass → Bool) (index : Nat) :
    index ≤ advance items p index :=
  (advance_spec items p index).1

end

/-! ## Words forward -/

section
variable {items : List Grapheme}

theorem forwardStep_spec {index j : Nat} (h : forwardStep items index = some j) :
    index ≤ j ∧ j < items.length := by
  unfold forwardStep at h
  dsimp only at h
  split at h
  · cases h
  · next hlt =>
    obtain rfl := Option.some.inj h
    exact ⟨Nat.le_trans (le_advance _ _ index) (le_advance _ _ _), by omega⟩

theorem forwardSteps_spec {count index j : Nat} (hindex : index < items.length)
    (h : forwardSteps items count index = some j) : index ≤ j ∧ j < items.length := by
  induction count generalizing index with
  | zero =>
    obtain rfl := Option.some.inj h
    exact ⟨Nat.le_refl _, hindex⟩
  | succ count ih =>
    obtain ⟨next, hnext, h⟩ := Option.bind_eq_some_iff.mp h
    obtain ⟨hle, hlt⟩ := forwardStep_spec hnext
    obtain ⟨hle', hlt'⟩ := ih hlt h
    exact ⟨Nat.le_trans hle hle', hlt'⟩

theorem forwardSteps_add (m n index : Nat) :
    forwardSteps items (m + n) index =
      (forwardSteps items m index).bind (forwardSteps items n) := by
  induction m generalizing index with
  | zero => rw [Nat.zero_add]; rfl
  | succ m ih =>
    rw [Nat.succ_add, forwardSteps, forwardSteps, Option.bind_assoc]
    congr 1
    funext next
    exact ih next

end

/-! ## Words backward -/

section
variable {items : List Grapheme}

theorem retreat_le (items : List Grapheme) (behind : Nat) : retreat items behind ≤ behind := by
  induction behind with
  | zero => exact Nat.le_refl _
  | succ index ih =>
    rw [retreat]
    split
    · exact Nat.le_succ_of_le ih
    · exact Nat.le_refl _

theorem runStart_le (items : List Grapheme) (kind : Option WordClass) (index : Nat) :
    runStart items kind index ≤ index := by
  induction index with
  | zero => exact Nat.le_refl _
  | succ index ih =>
    rw [runStart]
    split
    · exact Nat.le_succ_of_le ih
    · exact Nat.le_refl _

theorem backwardSteps_le (count behind : Nat) : backwardSteps items count behind ≤ behind := by
  induction count generalizing behind with
  | zero => exact Nat.le_refl _
  | succ count ih =>
    cases behind with
    | zero => exact Nat.le_refl _
    | succ behind =>
      have hle := retreat_le items (behind + 1)
      rw [backwardSteps]
      cases hretreat : retreat items (behind + 1) with
      | zero => exact Nat.zero_le _
      | succ index =>
        rw [hretreat] at hle
        have hstart := runStart_le items (kindAt items index) index
        dsimp only
        split
        · omega
        · exact Nat.le_trans (ih _) (by omega)

theorem backwardSteps_zero (count : Nat) : backwardSteps items count 0 = 0 := by
  cases count <;> rfl

/-- More rounds go on before the run that the last one has come to. -/
theorem backwardSteps_add {m n : Nat} (hm : 0 < m) (hn : 0 < n) (behind : Nat) :
    backwardSteps items (m + n) behind =
      backwardSteps items n (backwardSteps items m behind - 1) := by
  induction m generalizing behind with
  | zero => omega
  | succ m ih =>
    cases behind with
    | zero =>
      rw [backwardSteps_zero, backwardSteps_zero, backwardSteps_zero]
    | succ behind =>
      rw [Nat.succ_add, backwardSteps, backwardSteps]
      cases hretreat : retreat items (behind + 1) with
      | zero => exact (backwardSteps_zero n).symm
      | succ index =>
        dsimp only
        rw [if_neg (by omega)]
        rcases Nat.eq_zero_or_pos m with rfl | hm
        · rw [if_pos rfl, Nat.zero_add, Nat.add_sub_cancel]
        · rw [if_neg (by omega)]
          exact ih hm _

end

/-! ## Ends of words -/

/-- The last grapheme of a run that is not of spaces. -/
def Ends (items : List Grapheme) (index : Nat) : Prop :=
  ∃ kind, kindAt items index = some kind ∧ kind ≠ .space ∧ kindAt items (index + 1) ≠ some kind

instance (items : List Grapheme) (index : Nat) : Decidable (Ends items index) :=
  decidable_of_iff ((kindAt items index).any fun kind =>
    kind ≠ .space && kindAt items (index + 1) ≠ some kind) <| by
      unfold Ends
      cases kindAt items index <;> simp

section
variable {items : List Grapheme}

theorem Ends.lt {index : Nat} (h : Ends items index) : index < items.length := by
  obtain ⟨kind, hkind, -⟩ := h
  exact lt_of_kindAt hkind

theorem runEnd_spec {index : Nat} {kind : WordClass} (h : kindAt items index = some kind) :
    index ≤ runEnd items index ∧ kindAt items (runEnd items index + 1) ≠ some kind ∧
      ∀ j, index ≤ j → j ≤ runEnd items index → kindAt items j = some kind := by
  obtain ⟨hle, hover, hstop⟩ := advance_spec items
    (fun other => kindAt items index = some other) (index + 1)
  unfold runEnd
  have hback : advance items (fun other => kindAt items index = some other) (index + 1) - 1 + 1 =
      advance items (fun other => kindAt items index = some other) (index + 1) := by omega
  rw [hback]
  refine ⟨by omega, fun hsame => ?_, fun j hj hlt => ?_⟩
  · have hne := hstop kind hsame
    simp [h] at hne
  · rcases Nat.eq_or_lt_of_le hj with rfl | hj
    · exact h
    · obtain ⟨other, hother, heq⟩ := hover j hj (by omega)
      rw [hother, ← h]
      exact (of_decide_eq_true heq).symm

/-- No grapheme ends a word where spaces are passed over. -/
theorem not_ends_of_advance {start index : Nat} (hle : start ≤ index)
    (hlt : index < advance items isSpace start) : ¬Ends items index := by
  rintro ⟨kind, hkind, hne, -⟩
  obtain ⟨other, hother, hspace⟩ := (advance_spec items isSpace start).2.1 index hle hlt
  rw [hkind] at hother
  rw [← Option.some.inj hother] at hspace
  exact hne (of_decide_eq_true hspace)

/-- What a round comes to once it is past the spaces. -/
theorem ends_runEnd {start : Nat}
    (hlt : advance items isSpace start < items.length) :
    advance items isSpace start ≤ runEnd items (advance items isSpace start) ∧
      Ends items (runEnd items (advance items isSpace start)) ∧
      ∀ j, start ≤ j → j < runEnd items (advance items isSpace start) → ¬Ends items j := by
  obtain ⟨-, -, hstop⟩ := advance_spec items isSpace start
  cases hkind : kindAt items (advance items isSpace start) with
  | none =>
    have := kindAt_eq_none.mp hkind
    omega
  | some kind =>
    obtain ⟨hle, hbehind, hrun⟩ := runEnd_spec hkind
    have hne : kind ≠ .space := by
      rintro rfl
      exact absurd (hstop _ hkind) (by decide)
    refine ⟨hle, ⟨kind, hrun _ hle (Nat.le_refl _), hne, hbehind⟩, fun j hj hlt' => ?_⟩
    rcases Nat.lt_or_ge j (advance items isSpace start) with hspace | hword
    · exact not_ends_of_advance hj hspace
    · rintro ⟨other, hother, -, hne'⟩
      rw [hrun j hword (by omega)] at hother
      rw [hrun (j + 1) (by omega) (by omega)] at hne'
      exact hne' hother

/-- One round of `wordEnd` goes to the next end of a word. -/
theorem endStep_spec (items : List Grapheme) (index : Nat) :
    (∀ j, endStep items index = some j →
      index < j ∧ Ends items j ∧ ∀ other, index < other → other < j → ¬Ends items other) ∧
      (endStep items index = none → ∀ j, index < j → ¬Ends items j) := by
  have hpast {start : Nat} (hge : advance items isSpace start ≥ items.length) {j : Nat}
      (hj : start ≤ j) : ¬Ends items j := by
    intro hends
    exact not_ends_of_advance hj (Nat.lt_of_lt_of_le hends.lt hge) hends
  unfold endStep
  dsimp only
  by_cases hcond : advance items isSpace index = index ∧
      advance items isSpace index < items.length ∧
      kindAt items (advance items isSpace index) ≠ some .space ∧
      kindAt items (advance items isSpace index + 1) ≠ kindAt items (advance items isSpace index)
  · rw [if_pos hcond]
    obtain ⟨hsame, -, -, -⟩ := hcond
    rw [hsame]
    have hle := le_advance items isSpace (index + 1)
    split
    · next hge => exact ⟨nofun, fun _ j hj => hpast hge hj⟩
    · next hlt =>
      obtain ⟨hword, hends, hbetween⟩ := ends_runEnd (Nat.lt_of_not_le hlt)
      refine ⟨fun j hj => ?_, nofun⟩
      obtain rfl := Option.some.inj hj
      exact ⟨by omega, hends, fun other hother => hbetween other hother⟩
  · rw [if_neg hcond]
    split
    · next hge => exact ⟨nofun, fun _ j hj => hpast hge (Nat.le_of_lt hj)⟩
    · next hlt =>
      obtain ⟨hword, hends, hbetween⟩ := ends_runEnd (Nat.lt_of_not_le hlt)
      refine ⟨fun j hj => ?_, nofun⟩
      obtain rfl := Option.some.inj hj
      refine ⟨?_, hends, fun other hother => hbetween other (Nat.le_of_lt hother)⟩
      have hle := le_advance items isSpace index
      by_contra hge
      -- the grapheme would end its run, and the round would have started behind it
      have hsame : advance items isSpace index = index := by omega
      have hend : runEnd items (advance items isSpace index) = advance items isSpace index := by
        omega
      rw [hend] at hends
      obtain ⟨kind, hkind, hne, hbehind⟩ := hends
      refine hcond ⟨hsame, by omega, ?_, ?_⟩
      · rw [hkind]
        exact fun heq => hne (Option.some.inj heq)
      · rwa [hkind]

theorem endStep_eq_some {index j : Nat} (hlt : index < j) (hends : Ends items j)
    (hleast : ∀ other, index < other → other < j → ¬Ends items other) :
    endStep items index = some j := by
  obtain ⟨hsome, hnone⟩ := endStep_spec items index
  cases hstep : endStep items index with
  | none => exact absurd hends (hnone hstep j hlt)
  | some found =>
    obtain ⟨hlt', hends', hleast'⟩ := hsome found hstep
    rcases Nat.lt_trichotomy found j with hbefore | rfl | hbehind
    · exact absurd hends' (hleast found hlt' hbefore)
    · rfl
    · exact absurd hends (hleast' j hlt hbehind)

theorem endStep_eq_none {index : Nat} (h : ∀ j, index < j → ¬Ends items j) :
    endStep items index = none := by
  cases hstep : endStep items index with
  | none => rfl
  | some found =>
    obtain ⟨hlt, hends, -⟩ := (endStep_spec items index).1 found hstep
    exact absurd hends (h found hlt)

theorem endSteps_one (index : Nat) : endSteps items 1 index = endStep items index := by
  rw [endSteps]
  cases endStep items index <;> rfl

theorem endSteps_of_none {count index : Nat} (hcount : 0 < count)
    (h : endStep items index = none) : endSteps items count index = none := by
  cases count with
  | zero => omega
  | succ count => rw [endSteps, h]

/-- More rounds go on behind the grapheme that the last one has come to. -/
theorem endSteps_add {m n : Nat} (hm : 0 < m) (hn : 0 < n) (index : Nat) :
    endSteps items (m + n) index =
      (endSteps items m index).bind fun j => endSteps items n (j + 1) := by
  induction m generalizing index with
  | zero => omega
  | succ m ih =>
    rw [Nat.succ_add, endSteps, endSteps]
    cases hstep : endStep items index with
    | none => rfl
    | some j =>
      dsimp only
      rw [if_neg (by omega)]
      rcases Nat.eq_zero_or_pos m with rfl | hm
      · rw [if_pos rfl, Nat.zero_add]
        rfl
      · rw [if_neg (by omega)]
        exact ih hm _

theorem endSteps_spec {count index j : Nat} (hcount : 0 < count)
    (h : endSteps items count index = some j) : index < j ∧ Ends items j := by
  induction count generalizing index with
  | zero => omega
  | succ count ih =>
    rw [endSteps] at h
    cases hstep : endStep items index with
    | none =>
      rw [hstep] at h
      cases h
    | some found =>
      obtain ⟨hlt, hends, -⟩ := (endStep_spec items index).1 found hstep
      rw [hstep] at h
      dsimp only at h
      split at h
      · obtain rfl := Option.some.inj h
        exact ⟨hlt, hends⟩
      · obtain ⟨hlt', hends'⟩ := ih (by omega) h
        exact ⟨by omega, hends'⟩

/-! ## Counts in two parts -/

/-- Where `wordEnd` leaves the caret: past the end it stays on the last grapheme. -/
def landing (items : List Grapheme) (index : Option Nat) : Nat := index.getD (items.length - 1)

/-- Behind a position no word of one grapheme follows another word at once, but at the end. -/
def Smooth (items : List Grapheme) (index : Nat) : Prop :=
  ∀ j, index < j → Ends items j → Ends items (j + 1) → items.length ≤ j + 2

theorem landing_add_of_smooth {index : Nat} (h : Smooth items index) {m n : Nat} (hm : 0 < m)
    (hn : 0 < n) :
    landing items (endSteps items (m + n) index) =
      landing items (endSteps items n (landing items (endSteps items m index))) := by
  rw [endSteps_add hm hn]
  cases hfirst : endSteps items m index with
  | none =>
    have hlast : endStep items (items.length - 1) = none :=
      endStep_eq_none fun j hj hends => by have := hends.lt; omega
    have hrest : endSteps items n (landing items none) = none := endSteps_of_none hn hlast
    rw [hrest]
    rfl
  | some j =>
    obtain ⟨hlt, hends⟩ := endSteps_spec hm hfirst
    show landing items (endSteps items n (j + 1)) = landing items (endSteps items n j)
    by_cases hnext : Ends items (j + 1)
    · -- the next word is the last grapheme
      have hlength := h j hlt hends hnext
      have hlt' := hnext.lt
      have hpast : ∀ start, j + 1 ≤ start → endStep items start = none := fun start hstart =>
        endStep_eq_none fun k hk hends' => by have := hends'.lt; omega
      have hstep : endStep items j = some (j + 1) :=
        endStep_eq_some (Nat.lt_succ_self j) hnext fun other _ _ => by omega
      rw [endSteps_of_none hn (hpast _ (Nat.le_refl _))]
      cases n with
      | zero => omega
      | succ n =>
        rw [endSteps, hstep]
        dsimp only
        split
        · show items.length - 1 = j + 1
          omega
        · rw [endSteps_of_none (by omega) (hpast _ (by omega))]
    · have hsame : endStep items (j + 1) = endStep items j := by
        cases hstep : endStep items (j + 1) with
        | none =>
          refine (endStep_eq_none fun k hk hends' => ?_).symm
          rcases Nat.eq_or_lt_of_le hk with rfl | hk
          · exact hnext hends'
          · exact (endStep_spec items (j + 1)).2 hstep k hk hends'
        | some found =>
          obtain ⟨hlt', hends', hleast⟩ := (endStep_spec items (j + 1)).1 found hstep
          refine (endStep_eq_some (by omega) hends' fun other hother hother' hin => ?_).symm
          rcases Nat.eq_or_lt_of_le hother with rfl | hother
          · exact hnext hin
          · exact hleast other hother hother' hin
      cases n with
      | zero => omega
      | succ n => rw [endSteps, endSteps, hsame]

theorem exists_greatest_below {p : Nat → Prop} {j : Nat} (h : ∃ i < j, p i) :
    ∃ i < j, p i ∧ ∀ k, i < k → k < j → ¬p k := by
  induction j with
  | zero =>
    obtain ⟨i, hi, -⟩ := h
    omega
  | succ j ih =>
    by_cases hj : p j
    · exact ⟨j, Nat.lt_succ_self j, hj, fun k hk hk' => by omega⟩
    · obtain ⟨i, hi, hp⟩ := h
      have hne : i ≠ j := fun heq => hj (heq ▸ hp)
      obtain ⟨i', hi', hp', hgreatest⟩ := ih ⟨i, by omega, hp⟩
      refine ⟨i', by omega, hp', fun k hk hk' => ?_⟩
      rcases Nat.eq_or_lt_of_le (Nat.le_of_lt_succ hk') with rfl | hlt
      · exact hj
      · exact hgreatest k hk hlt

/-- Where counts compose, every end of a word behind a position is reached. -/
theorem exists_landing {index : Nat}
    (h : ∀ m n, 0 < m → 0 < n → landing items (endSteps items (m + n) index) =
      landing items (endSteps items n (landing items (endSteps items m index))))
    {j : Nat} (hlt : index < j) (hends : Ends items j) :
    ∃ count > 0, landing items (endSteps items count index) = j := by
  induction j using Nat.strongRecOn with
  | _ j ih =>
    by_cases hbefore : ∃ i < j, index < i ∧ Ends items i
    · obtain ⟨i, hi, ⟨hlt', hends'⟩, hgreatest⟩ := exists_greatest_below hbefore
      obtain ⟨count, hcount, hlanding⟩ := ih i hi hlt' hends'
      have hstep : endStep items i = some j :=
        endStep_eq_some hi hends fun other hother hother' hin =>
          hgreatest other hother hother' ⟨by omega, hin⟩
      refine ⟨count + 1, by omega, ?_⟩
      rw [h count 1 hcount (by omega), hlanding, endSteps_one, hstep]
      rfl
    · have hstep : endStep items index = some j :=
        endStep_eq_some hlt hends fun other hother hother' hin =>
          hbefore ⟨other, hother', hother, hin⟩
      refine ⟨1, by omega, ?_⟩
      rw [endSteps_one, hstep]
      rfl

theorem smooth_of_landing_add {index : Nat}
    (h : ∀ m n, 0 < m → 0 < n → landing items (endSteps items (m + n) index) =
      landing items (endSteps items n (landing items (endSteps items m index)))) :
    Smooth items index := by
  intro j hlt hends hnext
  by_contra hlength
  obtain ⟨count, hcount, hlanding⟩ := exists_landing h hlt hends
  have hstep : endStep items j = some (j + 1) :=
    endStep_eq_some (Nat.lt_succ_self j) hnext fun other _ _ => by omega
  have hcompose := h count 1 hcount (by omega)
  rw [hlanding, endSteps_one, hstep, endSteps_add hcount (by omega)] at hcompose
  cases hfirst : endSteps items count index with
  | none =>
    rw [hfirst] at hlanding
    have : items.length - 1 = j := hlanding
    omega
  | some found =>
    rw [hfirst] at hlanding hcompose
    obtain rfl : found = j := hlanding
    rw [Option.bind_some, endSteps_one] at hcompose
    cases hskip : endStep items (found + 1) with
    | none =>
      rw [hskip] at hcompose
      have : items.length - 1 = found + 1 := hcompose
      omega
    | some other =>
      rw [hskip] at hcompose
      have heq : other = found + 1 := hcompose
      have hbehind := ((endStep_spec items (found + 1)).1 other hskip).1
      omega

end

/-! ## Motions between boundaries -/

namespace Unicode

variable (unicode : Unicode) {value : Text} {index : Nat}

theorem wordForward_boundaryAt (h : index ≤ (unicode.graphemes value).length) (count : Nat) :
    unicode.wordForward value (unicode.boundaryAt value index) count =
      unicode.boundaryAt value (if index < (unicode.graphemes value).length then
        (forwardSteps (unicode.graphemes value) count index).getD
          (unicode.graphemes value).length
      else (unicode.graphemes value).length) := by
  unfold wordForward
  dsimp only
  rw [unicode.graphemeIndexAt_boundaryAt h]
  by_cases hlt : index < (unicode.graphemes value).length
  · rw [if_pos hlt, if_pos hlt]
    dsimp only
    cases hsteps : forwardSteps (unicode.graphemes value) count index with
    | none => exact (unicode.boundaryAt_length value).symm
    | some found =>
      exact unicode.map_start_getElem? (Nat.le_of_lt (forwardSteps_spec hlt hsteps).2)
  · rw [if_neg hlt, if_neg hlt]
    exact (unicode.boundaryAt_length value).symm

theorem findIdx?_start (h : index ≤ (unicode.graphemes value).length) :
    ((unicode.graphemes value).findIdx? fun item =>
      item.start ≥ unicode.boundaryAt value index).getD (unicode.graphemes value).length =
        index := by
  rcases Nat.lt_or_eq_of_le h with hlt | rfl
  · have hfind : (unicode.graphemes value).findIdx? (fun item =>
        item.start ≥ unicode.boundaryAt value index) = some index := by
      refine List.findIdx?_eq_some_iff_getElem.mpr ⟨hlt, ?_, fun j hj => ?_⟩
      · simp [unicode.getElem_graphemes hlt]
      · have hbefore := unicode.boundaryAt_lt hj h
        simp [unicode.getElem_graphemes (Nat.lt_trans hj hlt), hbefore]
    rw [hfind]
    rfl
  · rw [List.findIdx?_eq_none_iff.mpr]
    · rfl
    · intro item hitem
      obtain ⟨j, hj, rfl⟩ := List.getElem_of_mem hitem
      have hbefore := unicode.boundaryAt_lt hj (Nat.le_refl _)
      simp [unicode.getElem_graphemes hj, hbefore]

theorem wordBackward_boundaryAt (h : index ≤ (unicode.graphemes value).length) (count : Nat) :
    unicode.wordBackward value (unicode.boundaryAt value index) count =
      unicode.boundaryAt value (backwardSteps (unicode.graphemes value) count index - 1) := by
  unfold wordBackward
  dsimp only
  rw [unicode.findIdx?_start h]
  have hle : backwardSteps (unicode.graphemes value) count index ≤ index :=
    backwardSteps_le count index
  cases hsteps : backwardSteps (unicode.graphemes value) count index with
  | zero => exact (unicode.boundaryAt_zero value).symm
  | succ found =>
    have hlt : found < (unicode.graphemes value).length := by omega
    dsimp only
    rw [List.getElem?_eq_getElem hlt]
    exact (unicode.getElem_graphemes hlt).1

theorem wordEnd_boundaryAt (h : index < (unicode.graphemes value).length) (count : Nat) :
    unicode.wordEnd value (unicode.boundaryAt value index) count =
      unicode.boundaryAt value
        (landing (unicode.graphemes value) (endSteps (unicode.graphemes value) count index)) := by
  have hlast : (unicode.graphemes value).length - 1 < (unicode.graphemes value).length := by omega
  unfold wordEnd
  dsimp only
  rw [unicode.graphemeIndexAt_boundaryAt (Nat.le_of_lt h), if_pos h]
  dsimp only
  cases hsteps : endSteps (unicode.graphemes value) count index with
  | none =>
    rw [List.getLast?_eq_getElem?, List.getElem?_eq_getElem hlast]
    exact (unicode.getElem_graphemes hlast).1
  | some found =>
    have hfound : found < (unicode.graphemes value).length := by
      rcases Nat.eq_zero_or_pos count with rfl | hcount
      · rwa [← Option.some.inj hsteps]
      · exact (endSteps_spec hcount hsteps).2.lt
    dsimp only
    rw [Nat.min_eq_left (by omega : found ≤ (unicode.graphemes value).length - 1)]
    exact unicode.map_start_getElem? (Nat.le_of_lt hfound)

theorem wordEnd_length (value : Text) (count : Nat) :
    unicode.wordEnd value value.length count = value.length - 1 := by
  have hindex := unicode.graphemeIndexAt_boundaryAt (Nat.le_refl (unicode.graphemes value).length)
  rw [unicode.boundaryAt_length, if_neg (Nat.lt_irrefl _)] at hindex
  unfold wordEnd
  dsimp only
  rw [hindex]

/-! ## Counts in two parts, by positions -/

/-- Behind a position no word of one grapheme follows another word at once, but at the end. -/
def Separate (value : Text) (position : Nat) : Prop :=
  ∀ index, position < unicode.boundaryAt value index → Ends (unicode.graphemes value) index →
    Ends (unicode.graphemes value) (index + 1) → (unicode.graphemes value).length ≤ index + 2

theorem separate_iff_smooth (h : index ≤ (unicode.graphemes value).length) :
    unicode.Separate value (unicode.boundaryAt value index) ↔
      Smooth (unicode.graphemes value) index := by
  constructor
  · intro hseparate j hlt hends hnext
    exact hseparate j (unicode.boundaryAt_lt hlt (Nat.le_of_lt hends.lt)) hends hnext
  · intro hsmooth j hlt hends hnext
    refine hsmooth j ?_ hends hnext
    by_contra hge
    have hle := (unicode.boundaryAt_le_iff (Nat.le_of_lt hends.lt) h).mpr (Nat.le_of_not_lt hge)
    omega

variable {position : Nat}

theorem wordForward_mem (value : Text) (position count : Nat) :
    unicode.wordForward value position count ∈ unicode.graphemeBoundaries value := by
  unfold wordForward
  dsimp only
  cases graphemeIndexAt (unicode.graphemes value) position with
  | none => exact unicode.length_mem_graphemeBoundaries value
  | some index =>
    dsimp only
    cases forwardSteps (unicode.graphemes value) count index with
    | none => exact unicode.length_mem_graphemeBoundaries value
    | some found => exact unicode.start_mem found

theorem wordBackward_mem (value : Text) (position count : Nat) :
    unicode.wordBackward value position count ∈ unicode.graphemeBoundaries value := by
  unfold wordBackward
  dsimp only
  cases backwardSteps (unicode.graphemes value) count
      (((unicode.graphemes value).findIdx? fun item => item.start ≥ position).getD
        (unicode.graphemes value).length) with
  | zero => exact unicode.zero_mem_graphemeBoundaries value
  | succ found =>
    dsimp only
    cases hitem : (unicode.graphemes value)[found]? with
    | none => exact unicode.zero_mem_graphemeBoundaries value
    | some item =>
      have hmem := @start_mem unicode value found
      rwa [hitem] at hmem

/-- Past the end, the end of a word is the unit before the end. -/
theorem wordEnd_cases (value : Text) (position count : Nat) :
    unicode.wordEnd value position count ∈ unicode.graphemeBoundaries value ∨
      unicode.wordEnd value position count = value.length - 1 := by
  unfold wordEnd
  dsimp only
  cases graphemeIndexAt (unicode.graphemes value) position with
  | none => exact Or.inr rfl
  | some index =>
    left
    dsimp only
    cases endSteps (unicode.graphemes value) count index with
    | none =>
      dsimp only
      cases hitem : (unicode.graphemes value).getLast? with
      | none => exact unicode.zero_mem_graphemeBoundaries value
      | some item =>
        rw [List.getLast?_eq_getElem?] at hitem
        have hmem := @start_mem unicode value ((unicode.graphemes value).length - 1)
        rwa [hitem] at hmem
    | some found => exact unicode.start_mem _

theorem wordForward_add (h : position ∈ unicode.graphemeBoundaries value) (m n : Nat) :
    unicode.wordForward value position (m + n) =
      unicode.wordForward value (unicode.wordForward value position m) n := by
  obtain ⟨index, hindex, rfl⟩ := unicode.mem_graphemeBoundaries h
  rw [unicode.wordForward_boundaryAt hindex, unicode.wordForward_boundaryAt hindex]
  by_cases hlt : index < (unicode.graphemes value).length
  · rw [if_pos hlt, if_pos hlt, forwardSteps_add]
    cases hfirst : forwardSteps (unicode.graphemes value) m index with
    | none =>
      dsimp only [Option.bind_none, Option.getD_none]
      rw [unicode.wordForward_boundaryAt (Nat.le_refl _), if_neg (Nat.lt_irrefl _)]
    | some found =>
      have hfound := (forwardSteps_spec hlt hfirst).2
      dsimp only [Option.bind_some, Option.getD_some]
      rw [unicode.wordForward_boundaryAt (Nat.le_of_lt hfound), if_pos hfound]
  · rw [if_neg hlt, if_neg hlt, unicode.wordForward_boundaryAt (Nat.le_refl _),
      if_neg (Nat.lt_irrefl _)]

theorem le_wordForward (h : position ∈ unicode.graphemeBoundaries value) (count : Nat) :
    position ≤ unicode.wordForward value position count := by
  obtain ⟨index, hindex, rfl⟩ := unicode.mem_graphemeBoundaries h
  rw [unicode.wordForward_boundaryAt hindex]
  by_cases hlt : index < (unicode.graphemes value).length
  · rw [if_pos hlt]
    cases hsteps : forwardSteps (unicode.graphemes value) count index with
    | none => exact (unicode.boundaryAt_le_iff hindex (Nat.le_refl _)).mpr hindex
    | some found =>
      obtain ⟨hle, hfound⟩ := forwardSteps_spec hlt hsteps
      exact (unicode.boundaryAt_le_iff hindex (Nat.le_of_lt hfound)).mpr hle
  · rw [if_neg hlt]
    exact (unicode.boundaryAt_le_iff hindex (Nat.le_refl _)).mpr hindex

theorem wordBackward_add (h : position ∈ unicode.graphemeBoundaries value) {m n : Nat}
    (hm : 0 < m) (hn : 0 < n) :
    unicode.wordBackward value position (m + n) =
      unicode.wordBackward value (unicode.wordBackward value position m) n := by
  obtain ⟨index, hindex, rfl⟩ := unicode.mem_graphemeBoundaries h
  have hle : backwardSteps (unicode.graphemes value) m index ≤ index := backwardSteps_le m index
  rw [unicode.wordBackward_boundaryAt hindex, unicode.wordBackward_boundaryAt hindex,
    unicode.wordBackward_boundaryAt (by omega), backwardSteps_add hm hn]

theorem wordBackward_le (h : position ∈ unicode.graphemeBoundaries value) (count : Nat) :
    unicode.wordBackward value position count ≤ position := by
  obtain ⟨index, hindex, rfl⟩ := unicode.mem_graphemeBoundaries h
  have hle : backwardSteps (unicode.graphemes value) count index ≤ index :=
    backwardSteps_le count index
  rw [unicode.wordBackward_boundaryAt hindex]
  exact (unicode.boundaryAt_le_iff (by omega) hindex).mpr (by omega)

theorem landing_lt (h : index < (unicode.graphemes value).length) (count : Nat) :
    landing (unicode.graphemes value) (endSteps (unicode.graphemes value) count index) <
      (unicode.graphemes value).length := by
  cases hsteps : endSteps (unicode.graphemes value) count index with
  | none => exact Nat.sub_lt (Nat.lt_of_le_of_lt (Nat.zero_le _) h) (by omega)
  | some found =>
    rcases Nat.eq_zero_or_pos count with rfl | hcount
    · rwa [← Option.some.inj hsteps]
    · exact (endSteps_spec hcount hsteps).2.lt

theorem wordEnd_add_iff (h : index < (unicode.graphemes value).length) :
    (∀ m n, 0 < m → 0 < n →
      unicode.wordEnd value (unicode.boundaryAt value index) (m + n) =
        unicode.wordEnd value (unicode.wordEnd value (unicode.boundaryAt value index) m) n) ↔
      Smooth (unicode.graphemes value) index := by
  have hsame : ∀ m n, unicode.wordEnd value (unicode.boundaryAt value index) (m + n) =
      unicode.wordEnd value (unicode.wordEnd value (unicode.boundaryAt value index) m) n ↔
      landing (unicode.graphemes value) (endSteps (unicode.graphemes value) (m + n) index) =
        landing (unicode.graphemes value) (endSteps (unicode.graphemes value) n
          (landing (unicode.graphemes value)
            (endSteps (unicode.graphemes value) m index))) := by
    intro m n
    have hfirst := unicode.landing_lt h m
    rw [unicode.wordEnd_boundaryAt h, unicode.wordEnd_boundaryAt h,
      unicode.wordEnd_boundaryAt hfirst]
    constructor
    · exact unicode.boundaryAt_inj (Nat.le_of_lt (unicode.landing_lt h (m + n)))
        (Nat.le_of_lt (unicode.landing_lt hfirst n))
    · intro heq
      rw [heq]
  constructor
  · intro hall
    exact smooth_of_landing_add fun m n hm hn => (hsame m n).mp (hall m n hm hn)
  · intro hsmooth m n hm hn
    exact (hsame m n).mpr (landing_add_of_smooth hsmooth hm hn)

/-- From the end of the text the last grapheme is reached, if it is one unit. -/
theorem wordEnd_last (h : value.length - 1 ∈ unicode.graphemeBoundaries value) {count : Nat}
    (hcount : 0 < count) : unicode.wordEnd value (value.length - 1) count = value.length - 1 := by
  rcases Nat.eq_zero_or_pos value.length with hzero | hpos
  · have hlength := unicode.wordEnd_length value count
    rw [hzero] at hlength ⊢
    exact hlength
  · obtain ⟨index, hindex, hlast⟩ := unicode.mem_graphemeBoundaries h
    have hlt : index < (unicode.graphemes value).length := by
      refine Nat.lt_of_le_of_ne hindex fun heq => ?_
      rw [heq, unicode.boundaryAt_length] at hlast
      omega
    have hnone : endStep (unicode.graphemes value) index = none := by
      refine endStep_eq_none fun j hj hends => ?_
      have hfirst := unicode.boundaryAt_lt hj (Nat.le_of_lt hends.lt)
      have hsecond := unicode.boundaryAt_lt hends.lt (Nat.le_refl _)
      rw [unicode.boundaryAt_length] at hsecond
      omega
    have hsame : (unicode.graphemes value).length - 1 = index := by
      by_contra hne
      have hfirst := @boundaryAt_lt unicode value _ _
        (show index < (unicode.graphemes value).length - 1 by omega) (by omega)
      have hsecond := @boundaryAt_lt unicode value _ _
        (show (unicode.graphemes value).length - 1 < (unicode.graphemes value).length by omega)
        (Nat.le_refl _)
      rw [unicode.boundaryAt_length] at hsecond
      omega
    rw [← hlast, unicode.wordEnd_boundaryAt hlt, endSteps_of_none hcount hnone]
    show unicode.boundaryAt value ((unicode.graphemes value).length - 1) = _
    rw [hsame]

end Unicode

end Neoseq.Vim
