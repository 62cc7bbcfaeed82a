import Mathlib

/-! Replacing patterns in a text, from left to right and never inside a match. Where
every pattern begins with one marker that does not overlap itself, the text falls
into pieces between the markers, and a replacement changes the head of each piece
on its own. -/

namespace Neoseq.Text

variable {α : Type}

/-! ## Replacing -/

section

variable [DecidableEq α]

/-- A pattern, which is not empty, and what takes its place. -/
abbrev Rule (α : Type) := List α × List α

/-- The first rule whose pattern stands at the head of a text. -/
def ruleAt (rules : List (Rule α)) (text : List α) : Option (Rule α) :=
  rules.find? fun r => decide (r.1 <+: text)

theorem prefix_of_ruleAt {rules : List (Rule α)} {r : Rule α} {text : List α}
    (h : ruleAt rules text = some r) : r.1 <+: text := by
  unfold ruleAt at h
  exact of_decide_eq_true (List.find?_some (p := fun r : Rule α => decide (r.1 <+: text)) h)

theorem mem_of_ruleAt {rules : List (Rule α)} {r : Rule α} {text : List α}
    (h : ruleAt rules text = some r) : r ∈ rules := List.mem_of_find?_eq_some h

theorem ruleAt_eq_none {rules : List (Rule α)} {text : List α} :
    ruleAt rules text = none ↔ ∀ r ∈ rules, ¬r.1 <+: text := by
  unfold ruleAt
  simp

theorem ruleAt_congr {rules : List (Rule α)} {a b : List α}
    (h : ∀ r ∈ rules, r.1 <+: a ↔ r.1 <+: b) : ruleAt rules a = ruleAt rules b := by
  induction rules with
  | nil => rfl
  | cons r rules ih =>
    have ih := ih fun x hx => h x (List.mem_cons_of_mem _ hx)
    unfold ruleAt at ih ⊢
    rw [List.find?_cons, List.find?_cons, ih,
      decide_eq_decide.mpr (h r (List.mem_cons_self ..))]

/-- The text after a number of letters that were part of a match. -/
def substituteAfter (rules : List (Rule α)) : Nat → List α → List α
  | _, [] => []
  | n + 1, _ :: rest => substituteAfter rules n rest
  | 0, c :: rest =>
    match ruleAt rules (c :: rest) with
    | some r => r.2 ++ substituteAfter rules (r.1.length - 1) rest
    | none => c :: substituteAfter rules 0 rest

/-- Every match of a rule is replaced, in one pass. -/
def substitute (rules : List (Rule α)) (text : List α) : List α := substituteAfter rules 0 text

/-- The rules one after another, each over the whole text that the last one left. -/
def substituteEach (rules : List (Rule α)) (text : List α) : List α :=
  rules.foldl (fun text r => substitute [r] text) text

/-- The first match of a pattern is replaced. -/
def substituteFirst (r : Rule α) : List α → List α
  | [] => []
  | c :: rest =>
    if r.1 <+: c :: rest then r.2 ++ (c :: rest).drop r.1.length else c :: substituteFirst r rest

theorem substituteAfter_eq (rules : List (Rule α)) (n : Nat) (text : List α) :
    substituteAfter rules n text = substitute rules (text.drop n) := by
  induction n generalizing text with
  | zero => rfl
  | succ n ih =>
    cases text with
    | nil => rfl
    | cons c rest => exact ih rest
@[simp] theorem substitute_nil (rules : List (Rule α)) : substitute rules [] = [] := rfl

theorem substitute_none {rules : List (Rule α)} {c : α} {rest : List α}
    (h : ruleAt rules (c :: rest) = none) :
    substitute rules (c :: rest) = c :: substitute rules rest := by
  show substituteAfter rules 0 (c :: rest) = _
  rw [substituteAfter, h]
  rfl

theorem substitute_some {rules : List (Rule α)} {r : Rule α} {text : List α}
    (h : ruleAt rules text = some r) (hr : r.1 ≠ []) :
    substitute rules text = r.2 ++ substitute rules (text.drop r.1.length) := by
  have hstart : r.1 <+: text := prefix_of_ruleAt h
  cases text with
  | nil => exact absurd (List.prefix_nil.mp hstart) hr
  | cons c rest =>
    have hlength : 0 < r.1.length := List.length_pos_of_ne_nil hr
    show substituteAfter rules 0 (c :: rest) = _
    rw [substituteAfter, h]
    show r.2 ++ substituteAfter rules (r.1.length - 1) rest = _
    rw [substituteAfter_eq]
    obtain ⟨n, hn⟩ : ∃ n, r.1.length = n + 1 := ⟨r.1.length - 1, by omega⟩
    rw [hn]
    rfl

/-- A stretch in which no match starts is kept. -/
theorem substitute_append {rules : List (Rule α)} {kept rest : List α}
    (h : ∀ v, v <:+ kept → v ≠ [] → ruleAt rules (v ++ rest) = none) :
    substitute rules (kept ++ rest) = kept ++ substitute rules rest := by
  induction kept with
  | nil => rfl
  | cons c kept ih =>
    have hnone : ruleAt rules (c :: (kept ++ rest)) = none :=
      h (c :: kept) List.suffix_rfl (List.cons_ne_nil _ _)
    rw [List.cons_append, substitute_none hnone,
      ih fun v hv hne => h v (hv.trans (List.suffix_cons ..)) hne]
    rfl

end

section

variable [DecidableEq α]

theorem substituteFirst_append {r : Rule α} {kept rest : List α}
    (h : ∀ v, v <:+ kept → v ≠ [] → ¬r.1 <+: v ++ rest) :
    substituteFirst r (kept ++ rest) = kept ++ substituteFirst r rest := by
  induction kept with
  | nil => rfl
  | cons c kept ih =>
    have hno : ¬r.1 <+: c :: (kept ++ rest) :=
      h (c :: kept) List.suffix_rfl (List.cons_ne_nil _ _)
    rw [List.cons_append, substituteFirst, if_neg hno,
      ih fun v hv hne => h v (hv.trans (List.suffix_cons ..)) hne]
    rfl

theorem substituteFirst_prefix {r : Rule α} (hr : r.1 ≠ []) (rest : List α) :
    substituteFirst r (r.1 ++ rest) = r.2 ++ rest := by
  obtain ⟨pattern, text⟩ := r
  cases pattern with
  | nil => exact absurd rfl hr
  | cons c pattern =>
    show substituteFirst (c :: pattern, text) (c :: (pattern ++ rest)) = text ++ rest
    have hyes : c :: pattern <+: c :: (pattern ++ rest) :=
      (List.prefix_append (c :: pattern) rest)
    rw [substituteFirst, if_pos hyes, ← List.cons_append, List.drop_left]

end

/-! ## Markers -/

/-- A marker does not overlap itself. -/
def Unbordered (marker : List α) : Prop :=
  ∀ v, v <:+ marker → v <+: marker → v = [] ∨ v = marker

/-- No marker starts inside a text, whatever follows it. -/
def Guarded (marker text : List α) : Prop :=
  ∀ v, v <:+ text → v ≠ [] → ¬v <+: marker ∧ ¬marker <+: v

/-- A text as the piece before the first marker and the pieces after each. -/
structure Pieces (α : Type) where
  head : List α
  tails : List (List α)

namespace Pieces

variable {marker : List α}

def renderTails (marker : List α) (tails : List (List α)) : List α :=
  tails.flatMap fun t => marker ++ t

def render (marker : List α) (p : Pieces α) : List α := p.head ++ renderTails marker p.tails

def mapTails (p : Pieces α) (f : List α → List α) : Pieces α := ⟨p.head, p.tails.map f⟩

/-- The marker stands in no piece. -/
structure Clean (marker : List α) (p : Pieces α) : Prop where
  head : ¬marker <:+: p.head
  tails : ∀ t ∈ p.tails, ¬marker <:+: t

@[simp] theorem renderTails_nil : renderTails marker [] = [] := rfl

@[simp] theorem renderTails_cons (t : List α) (tails : List (List α)) :
    renderTails marker (t :: tails) = marker ++ (t ++ renderTails marker tails) :=
  List.append_assoc ..

/-- What follows a piece is nothing or a marker. -/
theorem renderTails_cases (marker : List α) (tails : List (List α)) :
    renderTails marker tails = [] ∨ ∃ rest, renderTails marker tails = marker ++ rest := by
  cases tails with
  | nil => exact .inl rfl
  | cons t tails => exact .inr ⟨_, renderTails_cons t tails⟩

end Pieces

variable {marker : List α}

/-- A suffix of two parts lies in the second or reaches into the first. -/
theorem suffix_append_cases {v a b : List α} (h : v <:+ a ++ b) :
    v <:+ b ∨ ∃ w, w <:+ a ∧ v = w ++ b := by
  rcases List.suffix_or_suffix_of_suffix h (List.suffix_append a b) with hv | ⟨w, rfl⟩
  · exact .inl hv
  · obtain ⟨u, hu⟩ := h
    rw [← List.append_assoc] at hu
    exact .inr ⟨w, ⟨u, List.append_cancel_right hu⟩, rfl⟩

/-- No marker starts inside a piece, as it cannot reach into the next marker. -/
theorem not_prefix_of_piece (hm : Unbordered marker) {piece v : List α}
    (hp : ¬marker <:+: piece) (hv : v <:+ piece) (hne : v ≠ []) (tails : List (List α)) :
    ¬marker <+: v ++ Pieces.renderTails marker tails := by
  intro h
  by_cases hlength : marker.length ≤ v.length
  · have hinside : marker <+: v := List.prefix_of_prefix_length_le h (List.prefix_append ..) hlength
    exact hp (hinside.isInfix.trans hv.isInfix)
  · have hover : v <+: marker :=
      List.prefix_of_prefix_length_le (List.prefix_append ..) h (by omega)
    obtain ⟨w, rfl⟩ := hover
    have hw : w <+: Pieces.renderTails (v ++ w) tails := (List.prefix_append_right_inj v).mp h
    have hwne : w ≠ [] := by
      rintro rfl
      simp at hlength
    rcases Pieces.renderTails_cases (v ++ w) tails with he | ⟨rest, he⟩
    · rw [he] at hw
      exact hwne (List.prefix_nil.mp hw)
    · rw [he] at hw
      have hborder : w <+: v ++ w :=
        List.prefix_of_prefix_length_le hw (List.prefix_append ..) (by simp)
      rcases hm w (List.suffix_append ..) hborder with h0 | h0
      · exact hwne h0
      · have := congrArg List.length h0
        rw [List.length_append] at this
        exact hne (List.length_eq_zero_iff.mp (by omega))

/-- No marker starts inside a marker but at its head. -/
theorem not_prefix_of_marker (hm : Unbordered marker) {v rest : List α} (hv : v <:+ marker)
    (hne : v ≠ []) (hshort : v ≠ marker) : ¬marker <+: v ++ rest := by
  intro h
  have hle : v.length ≤ marker.length := hv.length_le
  have hborder : v <+: marker := List.prefix_of_prefix_length_le (List.prefix_append ..) h hle
  rcases hm v hv hborder with h0 | h0
  · exact hne h0
  · exact hshort h0


/-- Two texts with the same pieces after them are equal piece by piece. -/
theorem head_eq_of_append_eq (hm : Unbordered marker) {a b : List α} (ha : ¬marker <:+: a)
    (hb : ¬marker <:+: b) {s t : List (List α)}
    (h : a ++ Pieces.renderTails marker s = b ++ Pieces.renderTails marker t) : a = b := by
  wlog hle : a.length ≤ b.length generalizing a b s t
  · exact (this hb ha h.symm (by omega)).symm
  · have hstart : a <+: b := List.prefix_of_prefix_length_le
      (List.prefix_append a _) (h ▸ List.prefix_append b _) hle
    obtain ⟨w, rfl⟩ := hstart
    rw [List.append_assoc, List.append_cancel_left_eq] at h
    cases w with
    | nil => simp
    | cons c w =>
      rcases Pieces.renderTails_cases marker s with he | ⟨rest, he⟩
      · rw [he] at h
        cases h
      · refine absurd ?_ (not_prefix_of_piece hm hb (List.suffix_append a (c :: w))
          (List.cons_ne_nil c w) t)
        rw [← h, he]
        exact List.prefix_append ..

namespace Pieces

theorem renderTails_injective (hm : Unbordered marker) {s t : List (List α)}
    (hs : ∀ x ∈ s, ¬marker <:+: x) (ht : ∀ x ∈ t, ¬marker <:+: x)
    (h : renderTails marker s = renderTails marker t) : s = t := by
  induction s generalizing t with
  | nil =>
    cases t with
    | nil => rfl
    | cons u t =>
      rw [renderTails_nil, renderTails_cons] at h
      have hnil : marker = [] := (List.append_eq_nil_iff.mp h.symm).1
      exact absurd (hnil ▸ List.nil_infix) (ht u (List.mem_cons_self ..))
  | cons v s ih =>
    cases t with
    | nil =>
      rw [renderTails_nil, renderTails_cons] at h
      have hnil : marker = [] := (List.append_eq_nil_iff.mp h).1
      exact absurd (hnil ▸ List.nil_infix) (hs v (List.mem_cons_self ..))
    | cons u t =>
      rw [renderTails_cons, renderTails_cons] at h
      have h := List.append_cancel_left h
      obtain rfl : v = u := head_eq_of_append_eq hm (hs v (List.mem_cons_self ..))
        (ht u (List.mem_cons_self ..)) h
      rw [ih (fun x hx => hs x (List.mem_cons_of_mem _ hx))
        (fun x hx => ht x (List.mem_cons_of_mem _ hx)) (List.append_cancel_left h)]

/-- A text falls into pieces in one way. -/
theorem render_injective (hm : Unbordered marker) {p q : Pieces α} (hp : p.Clean marker)
    (hq : q.Clean marker) (h : p.render marker = q.render marker) : p = q := by
  obtain ⟨a, s⟩ := p
  obtain ⟨b, t⟩ := q
  obtain rfl : a = b := head_eq_of_append_eq hm hp.head hq.head h
  exact congrArg (Pieces.mk a)
    (renderTails_injective hm hp.tails hq.tails (List.append_cancel_left h))

/-- Every text falls into pieces. -/
theorem exists_render (hne : marker ≠ []) (text : List α) :
    ∃ p : Pieces α, p.Clean marker ∧ p.render marker = text := by
  induction hn : text.length using Nat.strong_induction_on generalizing text with
  | _ n ih =>
    subst hn
    by_cases hmark : marker <+: text
    · obtain ⟨rest, rfl⟩ := hmark
      have hpos : 0 < marker.length := List.length_pos_of_ne_nil hne
      obtain ⟨p, hp, hr⟩ := ih rest.length (by rw [List.length_append]; omega) rest rfl
      refine ⟨⟨[], p.head :: p.tails⟩, ⟨fun h => hne (List.infix_nil.mp h), ?_⟩, ?_⟩
      · intro t ht
        rcases List.mem_cons.mp ht with rfl | ht
        · exact hp.head
        · exact hp.tails t ht
      · show renderTails marker (p.head :: p.tails) = _
        rw [renderTails_cons, ← hr]
        rfl
    · cases text with
      | nil => exact ⟨⟨[], []⟩, ⟨fun h => hne (List.infix_nil.mp h), nofun⟩, rfl⟩
      | cons c rest =>
        obtain ⟨p, hp, hr⟩ := ih rest.length (Nat.lt_succ_self _) rest rfl
        refine ⟨⟨c :: p.head, p.tails⟩, ⟨fun h => ?_, hp.tails⟩, by rw [← hr]; rfl⟩
        rcases List.infix_cons_iff.mp h with h | h
        · refine hmark (h.trans ?_)
          rw [← hr]
          exact List.prefix_append (c :: p.head) _
        · exact hp.head h

/-- A marker in a text is one before a piece. -/
theorem tails_of_suffix (hm : Unbordered marker) (hne : marker ≠ []) {p : Pieces α}
    (hp : p.Clean marker) {v : List α} (hv : v <:+ p.render marker) (hmark : marker <+: v) :
    ∃ t tails, t :: tails <:+ p.tails ∧ v = renderTails marker (t :: tails) := by
  obtain ⟨a, s⟩ := p
  have ha := hp.head
  have hs := hp.tails
  clear hp
  induction s generalizing a with
  | nil =>
    refine absurd ?_ ha
    have hv : v <:+ a := by simpa [render] using hv
    exact hmark.isInfix.trans hv.isInfix
  | cons t s ih =>
    rcases suffix_append_cases hv with hv | ⟨w, hw, rfl⟩
    · by_cases hwhole : v = renderTails marker (t :: s)
      · exact ⟨t, s, List.suffix_rfl, hwhole⟩
      · rw [renderTails_cons] at hv hwhole
        rcases suffix_append_cases hv with hv | ⟨w, hw, rfl⟩
        · obtain ⟨u, us, hu, he⟩ := ih t hv (hs t (List.mem_cons_self ..))
            fun x hx => hs x (List.mem_cons_of_mem _ hx)
          exact ⟨u, us, hu.trans (List.suffix_cons ..), he⟩
        · by_cases hw0 : w = []
          · subst hw0
            obtain ⟨u, us, hu, he⟩ := ih t List.suffix_rfl (hs t (List.mem_cons_self ..))
              fun x hx => hs x (List.mem_cons_of_mem _ hx)
            exact ⟨u, us, hu.trans (List.suffix_cons ..), he⟩
          · refine absurd hmark (not_prefix_of_marker hm hw hw0 ?_)
            rintro rfl
            exact hwhole rfl
    · by_cases hw0 : w = []
      · subst hw0
        exact ⟨t, s, List.suffix_rfl, rfl⟩
      · exact absurd hmark (not_prefix_of_piece hm ha hw hw0 _)

end Pieces

/-! ## Replacing piece by piece -/

theorem Guarded.prefix_of_append {x piece : List α} (hx : Guarded marker x)
    {tails : List (List α)} (h : x <+: piece ++ Pieces.renderTails marker tails) : x <+: piece := by
  by_cases hlength : x.length ≤ piece.length
  · exact List.prefix_of_prefix_length_le h (List.prefix_append ..) hlength
  · obtain ⟨w, rfl⟩ : piece <+: x :=
      List.prefix_of_prefix_length_le (List.prefix_append ..) h (by omega)
    have hw : w <+: Pieces.renderTails marker tails := (List.prefix_append_right_inj piece).mp h
    have hne : w ≠ [] := by
      rintro rfl
      simp at hlength
    rcases Pieces.renderTails_cases marker tails with he | ⟨rest, he⟩
    · rw [he] at hw
      exact absurd (List.prefix_nil.mp hw) hne
    · rw [he] at hw
      obtain ⟨hleft, hright⟩ := hx w (List.suffix_append ..) hne
      rcases List.prefix_or_prefix_of_prefix hw (List.prefix_append marker rest) with hp | hp
      · exact absurd hp hleft
      · exact absurd hp hright

/-- A guarded text before a clean one brings no marker. -/
theorem Guarded.not_infix_append {x piece : List α} (hx : Guarded marker x)
    (hp : ¬marker <:+: piece) : ¬marker <:+: x ++ piece := by
  intro h
  obtain ⟨v, hmark, hv⟩ := List.infix_iff_prefix_suffix.mp h
  rcases suffix_append_cases hv with hv | ⟨w, hw, rfl⟩
  · exact hp (hmark.isInfix.trans hv.isInfix)
  · by_cases hw0 : w = []
    · subst hw0
      exact hp hmark.isInfix
    · obtain ⟨hleft, hright⟩ := hx w hw hw0
      rcases List.prefix_or_prefix_of_prefix hmark (List.prefix_append w piece) with hq | hq
      · exact hright hq
      · exact hleft hq

/-- A guarded text stands behind a marker where it begins a piece. -/
theorem infix_render_iff (hm : Unbordered marker) (hne : marker ≠ []) {p : Pieces α}
    (hp : p.Clean marker) {x : List α} (hx : Guarded marker x) :
    marker ++ x <:+: p.render marker ↔ ∃ t ∈ p.tails, x <+: t := by
  constructor
  · intro h
    obtain ⟨v, hstart, hv⟩ := List.infix_iff_prefix_suffix.mp h
    obtain ⟨t, tails, hsuffix, rfl⟩ :=
      Pieces.tails_of_suffix hm hne hp hv ((List.prefix_append marker x).trans hstart)
    rw [Pieces.renderTails_cons, List.prefix_append_right_inj] at hstart
    exact ⟨t, hsuffix.subset (List.mem_cons_self ..), hx.prefix_of_append hstart⟩
  · rintro ⟨t, ht, hstart⟩
    have hpiece : marker ++ x <+: marker ++ t := (List.prefix_append_right_inj marker).mpr hstart
    have hinside : marker ++ t <:+: Pieces.renderTails marker p.tails := by
      obtain ⟨l, r, he⟩ := List.append_of_mem ht
      rw [he]
      unfold Pieces.renderTails
      rw [List.flatMap_append, List.flatMap_cons]
      exact ⟨_, _, List.append_assoc ..⟩
    exact (hpiece.isInfix.trans hinside).trans (List.suffix_append ..).isInfix

section

variable [DecidableEq α]

/-- The rules behind a marker. -/
def behind (marker : List α) (rules : List (Rule α)) : List (Rule α) :=
  rules.map fun r => (marker ++ r.1, marker ++ r.2)

/-- The head of a piece is replaced. -/
def swapHead (rules : List (Rule α)) (piece : List α) : List α :=
  match ruleAt rules piece with
  | some r => r.2 ++ piece.drop r.1.length
  | none => piece

theorem ruleAt_behind (marker : List α) (rules : List (Rule α)) (text : List α) :
    ruleAt (behind marker rules) (marker ++ text) =
      (ruleAt rules text).map fun r => (marker ++ r.1, marker ++ r.2) := by
  unfold ruleAt behind
  rw [List.find?_map]
  congr 2
  funext r
  simp [List.prefix_append_right_inj]

theorem ruleAt_behind_eq_none {rules : List (Rule α)} {text : List α} (h : ¬marker <+: text) :
    ruleAt (behind marker rules) text = none := by
  refine ruleAt_eq_none.mpr fun r hr hstart => ?_
  obtain ⟨r, _, rfl⟩ := List.mem_map.mp hr
  exact h ((List.prefix_append ..).trans hstart)

theorem ruleAt_append {rules : List (Rule α)} (hrules : ∀ r ∈ rules, Guarded marker r.1)
    (piece : List α) (tails : List (List α)) :
    ruleAt rules (piece ++ Pieces.renderTails marker tails) = ruleAt rules piece := by
  refine ruleAt_congr fun r hr => ?_
  exact ⟨(hrules r hr).prefix_of_append, fun h => h.trans (List.prefix_append ..)⟩

/-- Rules behind a marker act on each piece alone. -/
theorem substitute_render (hm : Unbordered marker) (hne : marker ≠ []) {rules : List (Rule α)}
    (hrules : ∀ r ∈ rules, Guarded marker r.1) {p : Pieces α} (hp : p.Clean marker) :
    substitute (behind marker rules) (p.render marker) =
      (p.mapTails (swapHead rules)).render marker := by
  obtain ⟨a, s⟩ := p
  have hkeep : ∀ piece, ¬marker <:+: piece → ∀ tails,
      substitute (behind marker rules) (piece ++ Pieces.renderTails marker tails) =
        piece ++ substitute (behind marker rules) (Pieces.renderTails marker tails) :=
    fun piece hpiece tails => substitute_append fun v hv hv0 =>
      ruleAt_behind_eq_none (not_prefix_of_piece hm hpiece hv hv0 tails)
  have htails : ∀ tails, (∀ t ∈ tails, ¬marker <:+: t) →
      substitute (behind marker rules) (Pieces.renderTails marker tails) =
        Pieces.renderTails marker (tails.map (swapHead rules)) := by
    intro tails ht
    induction tails with
    | nil => rfl
    | cons t tails ih =>
      have ih := ih fun x hx => ht x (List.mem_cons_of_mem _ hx)
      have hclean := ht t (List.mem_cons_self ..)
      have hrule := (ruleAt_behind marker rules
        (t ++ Pieces.renderTails marker tails)).trans
          (congrArg _ (ruleAt_append hrules t tails))
      rw [List.map_cons, Pieces.renderTails_cons, Pieces.renderTails_cons]
      cases hr : ruleAt rules t with
      | some r =>
        rw [hr] at hrule
        have hpos : marker ++ r.1 ≠ [] := fun h => hne (List.append_eq_nil_iff.mp h).1
        obtain ⟨rest, rfl⟩ := prefix_of_ruleAt hr
        rw [substitute_some hrule hpos, List.length_append, ← List.drop_drop, List.drop_left,
          List.append_assoc, List.append_assoc, List.drop_left,
          hkeep rest (fun h => hclean (h.trans (List.suffix_append ..).isInfix)), ih]
        unfold swapHead
        rw [hr]
        simp only [List.drop_left, List.append_assoc]
      | none =>
        rw [hr] at hrule
        have hskip : ∀ v, v <:+ marker → v ≠ [] →
            ruleAt (behind marker rules) (v ++ (t ++ Pieces.renderTails marker tails)) = none := by
          intro v hv hv0
          by_cases hwhole : v = marker
          · rw [hwhole]
            exact hrule
          · exact ruleAt_behind_eq_none (not_prefix_of_marker hm hv hv0 hwhole)
        rw [substitute_append hskip, hkeep t hclean, ih]
        unfold swapHead
        rw [hr]
  show substitute (behind marker rules) (a ++ Pieces.renderTails marker s) = _
  rw [hkeep a hp.head, htails s hp.tails]
  rfl

theorem clean_swapHead {rules : List (Rule α)} (hrules : ∀ r ∈ rules, Guarded marker r.2)
    {p : Pieces α} (hp : p.Clean marker) : (p.mapTails (swapHead rules)).Clean marker := by
  refine ⟨hp.head, fun t ht => ?_⟩
  obtain ⟨t, htails, rfl⟩ := List.mem_map.mp ht
  unfold swapHead
  split
  · next r hr =>
    refine (hrules r (mem_of_ruleAt hr)).not_infix_append fun h => ?_
    exact hp.tails t htails (h.trans (List.drop_suffix ..).isInfix)
  · exact hp.tails t htails

/-- The rules one after another on the head of a piece. -/
def swapEach (rules : List (Rule α)) (piece : List α) : List α :=
  rules.foldl (fun piece r => swapHead [r] piece) piece

/-- One pass for each rule changes each piece alone, too. -/
theorem substituteEach_render (hm : Unbordered marker) (hne : marker ≠ []) {rules : List (Rule α)}
    (hrules : ∀ r ∈ rules, Guarded marker r.1 ∧ Guarded marker r.2) {p : Pieces α}
    (hp : p.Clean marker) :
    substituteEach (behind marker rules) (p.render marker) =
        (p.mapTails (swapEach rules)).render marker ∧
      (p.mapTails (swapEach rules)).Clean marker := by
  induction rules generalizing p with
  | nil =>
    have hid : p.mapTails (swapEach []) = p := congrArg (Pieces.mk p.head) (List.map_id _)
    rw [hid]
    exact ⟨rfl, hp⟩
  | cons r rules ih =>
    have hfirst : ∀ x ∈ [r], Guarded marker x.1 ∧ Guarded marker x.2 := fun x hx =>
      hrules x (List.mem_cons.mpr (.inl (List.mem_singleton.mp hx)))
    have hclean := clean_swapHead (fun x hx => (hfirst x hx).2) hp
    have hrest := ih (fun x hx => hrules x (List.mem_cons_of_mem _ hx)) hclean
    have hboth : (p.mapTails (swapHead [r])).mapTails (swapEach rules) =
        p.mapTails (swapEach (r :: rules)) := congrArg (Pieces.mk p.head) (List.map_map ..)
    rw [hboth] at hrest
    refine ⟨?_, hrest.2⟩
    rw [← hrest.1, ← substitute_render hm hne (fun x hx => (hfirst x hx).1) hp]
    rfl

end

end Neoseq.Text
