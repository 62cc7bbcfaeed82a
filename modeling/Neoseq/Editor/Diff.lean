import Neoseq.Editor.Splice

/-! The changes between two contents, where a change arrives without its own: the shortest
way over the grid of both contents along its diagonals. What it keeps are equal atoms in
their order, so that a draft can always be moved onto a content. -/

namespace Neoseq.Editor
open Content (InlineContent)

/-! ## The search -/

/-- On each diagonal the furthest place in the content before. -/
abbrev Frontier := Int → Nat

def Frontier.start : Frontier := fun _ => 0

def Frontier.fromAbove (frontier : Frontier) (edits : Nat) (diagonal : Int) : Bool :=
  decide (diagonal = -edits ∨
    (diagonal ≠ edits ∧ frontier (diagonal - 1) < frontier (diagonal + 1)))

/-- Where a diagonal is entered with one more edit. -/
def Frontier.entered (frontier : Frontier) (edits : Nat) (diagonal : Int) : Nat :=
  if frontier.fromAbove edits diagonal then frontier (diagonal + 1)
  else frontier (diagonal - 1) + 1

/-- How far one gets on a diagonal with one more edit and the equal atoms behind it. -/
def Frontier.reached (before after : List ContentAtom) (frontier : Frontier) (edits : Nat)
    (diagonal : Int) : Nat :=
  let x := frontier.entered edits diagonal
  x + commonPrefix (before.drop x) (after.drop (x - diagonal).toNat)

def diagonals (edits : Nat) : List Int :=
  (List.range (edits + 1)).map fun (i : Nat) => 2 * (i : Int) - edits

/-- The loop over the diagonals; it breaks where both ends are reached. -/
def searchRound (before after : List ContentAtom) (edits : Nat) :
    List Int → Frontier → Frontier × Bool
  | [], frontier => (frontier, false)
  | diagonal :: rest, frontier =>
    let x := frontier.reached before after edits diagonal
    let next : Frontier := Function.update frontier diagonal x
    if before.length ≤ x ∧ after.length ≤ x - diagonal then (next, true)
    else searchRound before after edits rest next

/-- The frontiers as they stood before the edits, the last one first. `remaining` is how many
edits may still be tried. -/
def searchTrace (before after : List ContentAtom) (frontier : Frontier) (trace : List Frontier) :
    (remaining : Nat) → Option (List Frontier)
  | 0 => none
  | remaining + 1 =>
    let (next, found) := searchRound before after trace.length (diagonals trace.length) frontier
    if found then some (frontier :: trace)
    else searchTrace before after next (frontier :: trace) remaining

/-- The places passed on a diagonal, back to where it was entered. -/
def keptFrom (previousX : Nat) (previousY : Int) : (x y : Nat) → List (Nat × Nat) →
    List (Nat × Nat)
  | x + 1, y + 1, kept =>
    if previousX < x + 1 ∧ previousY < y + 1 then keptFrom previousX previousY x y ((y, x) :: kept)
    else kept
  | _, _, kept => kept

/-- The way back through the frontiers. Kept are pairs of a place after and one before. -/
def backtrack : List Frontier → (x y : Nat) → List (Nat × Nat) → List (Nat × Nat)
  | frontier :: first :: trace, x, y, kept =>
    let edits := trace.length + 1
    let diagonal : Int := x - y
    let previous := if frontier.fromAbove edits diagonal then diagonal + 1 else diagonal - 1
    let previousX := frontier previous
    let previousY : Int := previousX - previous
    backtrack (first :: trace) previousX previousY.toNat (keptFrom previousX previousY x y kept)
  | _, x, y, kept => keptFrom 0 0 x y kept

/-- Beyond this many edits a span is replaced whole. -/
def diffEditLimit : Nat := 500

/-- For each atom of the span after that is kept, its place and that before. -/
def matchMiddle (before : List ContentAtom) (beforeStart beforeEnd : Nat)
    (after : List ContentAtom) (afterStart afterEnd : Nat) : List (Nat × Nat) :=
  let before := (before.take beforeEnd).drop beforeStart
  let after := (after.take afterEnd).drop afterStart
  let limit := min (before.length + after.length) diffEditLimit
  match searchTrace before after .start [] (limit + 1) with
  | none => []
  | some trace => (backtrack trace before.length after.length []).map fun (y, x) =>
      (afterStart + y, beforeStart + x)

/-- Of each atom of the content after its place in the one before. -/
def diffOrigins (before after : List ContentAtom) : Origins :=
  let start := commonPrefix before after
  let same := commonPrefix (before.drop start).reverse (after.drop start).reverse
  let beforeEnd := before.length - same
  let afterEnd := after.length - same
  let middle := matchMiddle before start beforeEnd after start afterEnd
  (List.range start).map some ++
    (List.range' start (afterEnd - start)).map (fun index => middle.lookup index) ++
    (List.range' afterEnd (after.length - afterEnd)).map fun index =>
      some (beforeEnd + index - afterEnd)

def diffContent (before after : List ContentAtom) : List ContentRangeChange :=
  changesFromOrigins before.length (diffOrigins before after)

/-- A draft is moved through the mapping of a change where that starts from its source, and
through a diff otherwise. -/
def rebaseOnto (buffer : ContentBuffer) (content : List InlineContent)
    (mapping : Option (List ContentRangeChange)) :
    Except ContentError (ContentBuffer × List ContentRangeChange) :=
  match mapping.bind (rebaseBuffer buffer content) with
  | some mapped => .ok mapped
  | none =>
    match rebaseBuffer buffer content (diffContent buffer.source (contentAtoms content)) with
    | some diffed => .ok diffed
    | none => .error (.error "a content diff must map its own source")

/-! ## The places of a round -/

/-- A diagonal that is visited with this many edits. -/
def OnRound (edits : Nat) (diagonal : Int) : Prop :=
  -edits ≤ diagonal ∧ diagonal ≤ edits ∧ (diagonal + edits) % 2 = 0

theorem mem_diagonals {edits : Nat} {diagonal : Int} :
    diagonal ∈ diagonals edits ↔ OnRound edits diagonal := by
  unfold diagonals OnRound
  rw [List.mem_map]
  constructor
  · intro ⟨i, hi, hdiagonal⟩
    rw [List.mem_range] at hi
    omega
  · intro ⟨hlow, hhigh, heven⟩
    refine ⟨((diagonal + edits) / 2).toNat, ?_, ?_⟩
    · rw [List.mem_range]
      omega
    · omega

variable {before after : List ContentAtom}

/-- The end of both contents, on a diagonal. -/
def AtEnd (before after : List ContentAtom) (x : Nat) (diagonal : Int) : Prop :=
  before.length ≤ x ∧ (after.length : Int) ≤ x - diagonal

theorem reached_congr {frontier frontier' : Frontier} {edits : Nat} {diagonal : Int}
    (hbelow : frontier (diagonal - 1) = frontier' (diagonal - 1))
    (habove : frontier (diagonal + 1) = frontier' (diagonal + 1)) :
    frontier.reached before after edits diagonal = frontier'.reached before after edits diagonal := by
  unfold Frontier.reached Frontier.entered Frontier.fromAbove
  rw [hbelow, habove]

/-- A round that does not reach the end has moved each of its diagonals; one that does has
reached it on one of them. -/
theorem searchRound_spec (edits : Nat) (rest : List Int) (frontier : Frontier)
    (hrest : ∀ diagonal ∈ rest, OnRound edits diagonal) :
    ((searchRound before after edits rest frontier).2 = true →
      ∃ diagonal ∈ rest,
        AtEnd before after (frontier.reached before after edits diagonal) diagonal) ∧
    ((searchRound before after edits rest frontier).2 = false →
      (∀ diagonal ∈ rest,
        ¬AtEnd before after (frontier.reached before after edits diagonal) diagonal ∧
        (searchRound before after edits rest frontier).1 diagonal =
          frontier.reached before after edits diagonal) ∧
      ∀ diagonal, diagonal ∉ rest →
        (searchRound before after edits rest frontier).1 diagonal = frontier diagonal) := by
  induction rest generalizing frontier with
  | nil => exact ⟨nofun, fun _ => ⟨nofun, fun _ _ => rfl⟩⟩
  | cons first rest ih =>
    obtain ⟨hfirst, hrest⟩ := List.forall_mem_cons.mp hrest
    have ⟨x, hx⟩ : ∃ x, x = frontier.reached before after edits first := ⟨_, rfl⟩
    have ⟨next, hnext⟩ : ∃ next : Frontier, next = Function.update frontier first x := ⟨_, rfl⟩
    -- the places beside a diagonal of the round are not of the round
    have hbeside {diagonal : Int} (hround : OnRound edits diagonal) :
        next.reached before after edits diagonal =
          frontier.reached before after edits diagonal := by
      have hbelow : diagonal - 1 ≠ first := by
        unfold OnRound at hround hfirst
        omega
      have habove : diagonal + 1 ≠ first := by
        unfold OnRound at hround hfirst
        omega
      rw [hnext]
      exact reached_congr (Function.update_of_ne hbelow _ _) (Function.update_of_ne habove _ _)
    rw [searchRound, ← hx, ← hnext]
    split_ifs with hend
    · refine ⟨fun _ => ⟨first, List.mem_cons_self, ?_⟩, nofun⟩
      rw [← hx]
      exact hend
    · obtain ⟨hfound, hnone⟩ := ih next hrest
      refine ⟨fun h => ?_, fun h => ⟨?_, ?_⟩⟩
      · obtain ⟨diagonal, hmem, hatEnd⟩ := hfound h
        rw [hbeside (hrest diagonal hmem)] at hatEnd
        exact ⟨diagonal, List.mem_cons_of_mem _ hmem, hatEnd⟩
      · obtain ⟨hmoved, hkept⟩ := hnone h
        refine List.forall_mem_cons.mpr ⟨⟨?_, ?_⟩, fun diagonal hmem => ?_⟩
        · rw [← hx]
          exact hend
        · by_cases hmem : first ∈ rest
          · rw [(hmoved first hmem).2, hbeside hfirst]
          · rw [hkept first hmem, hnext, Function.update_self, hx]
        · rw [← hbeside (hrest diagonal hmem)]
          exact hmoved diagonal hmem
      · intro diagonal hmem
        rw [List.mem_cons, not_or] at hmem
        rw [(hnone h).2 diagonal hmem.2, hnext, Function.update_of_ne hmem.1]

/-! ## How far the rounds get -/

/-- A frontier after a round that did not reach the end. Past one of the ends it goes only
beside a diagonal that is almost as far. -/
structure Furthest (before after : List ContentAtom) (edits : Nat) (frontier : Frontier) :
    Prop where
  low : ∀ (diagonal : Int), OnRound edits diagonal → diagonal ≤ frontier diagonal
  notEnd : ∀ (diagonal : Int), OnRound edits diagonal →
    ¬AtEnd before after (frontier diagonal) diagonal
  wide : ∀ (diagonal : Int), OnRound edits diagonal → before.length < frontier diagonal →
    OnRound edits (diagonal - 2) ∧ frontier diagonal ≤ frontier (diagonal - 2) + 1
  tall : ∀ (diagonal : Int), OnRound edits diagonal →
    (after.length : Int) < frontier diagonal - diagonal →
    OnRound edits (diagonal + 2) ∧ frontier diagonal + 1 ≤ frontier (diagonal + 2)

variable {frontier next : Frontier} {edits : Nat} {diagonal : Int}

theorem entered_le_reached :
    frontier.entered edits diagonal ≤ frontier.reached before after edits diagonal :=
  Nat.le_add_right _ _

/-- Equal atoms are passed inside the contents only. -/
theorem reached_le (hlow : diagonal ≤ frontier.entered edits diagonal) :
    frontier.reached before after edits diagonal = frontier.entered edits diagonal ∨
      (frontier.reached before after edits diagonal ≤ before.length ∧
        (frontier.reached before after edits diagonal : Int) - diagonal ≤ after.length) := by
  obtain ⟨hbefore, hafter⟩ := commonPrefix_le (before.drop (frontier.entered edits diagonal))
    (after.drop (frontier.entered edits diagonal - diagonal).toNat)
  rw [List.length_drop] at hbefore hafter
  have hreached : frontier.reached before after edits diagonal = frontier.entered edits diagonal +
      commonPrefix (before.drop (frontier.entered edits diagonal))
        (after.drop (frontier.entered edits diagonal - diagonal).toNat) := rfl
  omega

/-- A diagonal is entered from the one above or the one below, whichever is further. -/
theorem entered_cases (frontier : Frontier) (hround : OnRound (edits + 1) diagonal) :
    (OnRound edits (diagonal + 1) ∧ frontier.fromAbove (edits + 1) diagonal = true ∧
      frontier.entered (edits + 1) diagonal = frontier (diagonal + 1) ∧
      (OnRound edits (diagonal - 1) → frontier (diagonal - 1) < frontier (diagonal + 1))) ∨
    (OnRound edits (diagonal - 1) ∧ frontier.fromAbove (edits + 1) diagonal = false ∧
      frontier.entered (edits + 1) diagonal = frontier (diagonal - 1) + 1 ∧
      (OnRound edits (diagonal + 1) → frontier (diagonal + 1) ≤ frontier (diagonal - 1))) := by
  unfold Frontier.entered
  obtain ⟨hlow, hhigh, heven⟩ := hround
  by_cases habove : frontier.fromAbove (edits + 1) diagonal = true
  · have hcase := of_decide_eq_true habove
    refine .inl ⟨?_, habove, if_pos habove, ?_⟩
    · unfold OnRound
      omega
    · unfold OnRound
      omega
  · have hcase : ¬(diagonal = -((edits + 1 : Nat) : Int) ∨ (diagonal ≠ ((edits + 1 : Nat) : Int) ∧
        frontier (diagonal - 1) < frontier (diagonal + 1))) :=
      fun h => habove (decide_eq_true h)
    refine .inr ⟨?_, Bool.not_eq_true _ ▸ habove, if_neg habove, ?_⟩
    · unfold OnRound
      omega
    · unfold OnRound
      omega

theorem le_entered_of_above (frontier : Frontier) (hround : OnRound (edits + 1) diagonal)
    (habove : OnRound edits (diagonal + 1)) :
    frontier (diagonal + 1) ≤ frontier.entered (edits + 1) diagonal := by
  rcases entered_cases frontier hround with ⟨-, -, hentered, -⟩ | ⟨-, -, hentered, hle⟩
  · exact hentered.ge
  · have h := hle habove
    omega

theorem lt_entered_of_below (frontier : Frontier) (hround : OnRound (edits + 1) diagonal)
    (hbelow : OnRound edits (diagonal - 1)) :
    frontier (diagonal - 1) < frontier.entered (edits + 1) diagonal := by
  rcases entered_cases frontier hround with ⟨-, -, hentered, hlt⟩ | ⟨-, -, hentered, -⟩
  · have h := hlt hbelow
    omega
  · omega

theorem Furthest.low_entered (h : Furthest before after edits frontier)
    (hround : OnRound (edits + 1) diagonal) :
    diagonal ≤ frontier.entered (edits + 1) diagonal := by
  rcases entered_cases frontier hround with ⟨habove, -, hentered, -⟩ | ⟨hbelow, -, hentered, -⟩
  · have hlow := h.low _ habove
    omega
  · have hlow := h.low _ hbelow
    omega

theorem entered_start : Frontier.start.entered 0 0 = 0 := rfl

/-- The first round passes what both contents start with. -/
theorem furthest_zero
    (hnext : ∀ d, OnRound 0 d → next d = Frontier.start.reached before after 0 d)
    (hend : ∀ d, OnRound 0 d → ¬AtEnd before after (next d) d) :
    Furthest before after 0 next := by
  have hzero {d : Int} (hround : OnRound 0 d) : d = 0 := by
    unfold OnRound at hround
    omega
  have hbound := @reached_le before after .start 0 0 (Int.natCast_nonneg _)
  rw [entered_start] at hbound
  refine ⟨fun d hround => ?_, hend, fun d hround hlt => ?_, fun d hround hlt => ?_⟩
  · rw [hzero hround]
    exact Int.natCast_nonneg _
  · have h := hnext d hround
    obtain rfl := hzero hround
    omega
  · have h := hnext d hround
    obtain rfl := hzero hround
    omega

theorem Furthest.step (h : Furthest before after edits frontier)
    (hnext : ∀ d, OnRound (edits + 1) d →
      next d = frontier.reached before after (edits + 1) d)
    (hend : ∀ d, OnRound (edits + 1) d → ¬AtEnd before after (next d) d) :
    Furthest before after (edits + 1) next := by
  have hle {d : Int} (hround : OnRound (edits + 1) d) :
      frontier.entered (edits + 1) d ≤ next d := hnext d hround ▸ entered_le_reached
  refine ⟨fun d hround => ?_, hend, fun d hround hlt => ?_, fun d hround hlt => ?_⟩
  · have hlow := h.low_entered hround
    have hge := hle hround
    omega
  · have hentered : next d = frontier.entered (edits + 1) d := by
      have hbound := @reached_le before after _ _ _ (h.low_entered hround)
      rw [← hnext d hround] at hbound
      omega
    -- the diagonal two below was reached from the place this one was
    have hbelow (hplace : OnRound edits (d - 1)) (hnear : next d ≤ frontier (d - 1) + 1) :
        OnRound (edits + 1) (d - 2) ∧ next d ≤ next (d - 2) + 1 := by
      have hround' : OnRound (edits + 1) (d - 2) := by
        unfold OnRound at hplace ⊢
        omega
      have hplace' : OnRound edits (d - 2 + 1) := by rwa [show d - 2 + 1 = d - 1 by omega]
      have hfar := le_entered_of_above frontier hround' hplace'
      rw [show d - 2 + 1 = d - 1 by omega] at hfar
      exact ⟨hround', by have := hle hround'; omega⟩
    rcases entered_cases frontier hround with ⟨habove, -, heq, -⟩ | ⟨hplace, -, heq, -⟩
    · obtain ⟨hplace, hnear⟩ := h.wide _ habove (by omega)
      rw [show d + 1 - 2 = d - 1 by omega] at hplace hnear
      exact hbelow hplace (by omega)
    · exact hbelow hplace (by omega)
  · have hentered : next d = frontier.entered (edits + 1) d := by
      have hbound := @reached_le before after _ _ _ (h.low_entered hround)
      rw [← hnext d hround] at hbound
      omega
    have habove (hplace : OnRound edits (d + 1)) (hnear : next d ≤ frontier (d + 1)) :
        OnRound (edits + 1) (d + 2) ∧ next d + 1 ≤ next (d + 2) := by
      have hround' : OnRound (edits + 1) (d + 2) := by
        unfold OnRound at hplace ⊢
        omega
      have hplace' : OnRound edits (d + 2 - 1) := by rwa [show d + 2 - 1 = d + 1 by omega]
      have hfar := lt_entered_of_below frontier hround' hplace'
      rw [show d + 2 - 1 = d + 1 by omega] at hfar
      exact ⟨hround', by have := hle hround'; omega⟩
    rcases entered_cases frontier hround with ⟨hplace, -, heq, -⟩ | ⟨hbelow, -, heq, -⟩
    · exact habove hplace (by omega)
    · obtain ⟨hplace, hnear⟩ := h.tall _ hbelow (by omega)
      rw [show d - 1 + 2 = d + 1 by omega] at hplace hnear
      exact habove hplace (by omega)

/-- The end is reached exactly, never past it. -/
theorem Furthest.reached_end (h : Furthest before after edits frontier)
    (hround : OnRound (edits + 1) diagonal)
    (hend : AtEnd before after (frontier.reached before after (edits + 1) diagonal) diagonal) :
    frontier.reached before after (edits + 1) diagonal = before.length ∧
      (before.length : Int) - diagonal = after.length := by
  obtain ⟨hbefore, hafter⟩ := hend
  rcases @reached_le before after _ _ _ (h.low_entered hround) with heq | hbound
  · rcases entered_cases frontier hround with ⟨habove, -, hentered, -⟩ | ⟨hbelow, -, hentered, -⟩
    · have hnot : ¬(before.length ≤ _ ∧ _) := h.notEnd _ habove
      by_cases hwide : before.length < frontier (diagonal + 1)
      · obtain ⟨hplace, hnear⟩ := h.wide _ habove hwide
        rw [show diagonal + 1 - 2 = diagonal - 1 by omega] at hplace hnear
        have hnot' : ¬(before.length ≤ _ ∧ _) := h.notEnd _ hplace
        omega
      · omega
    · have hnot : ¬(before.length ≤ _ ∧ _) := h.notEnd _ hbelow
      by_cases htall : (after.length : Int) < frontier (diagonal - 1) - (diagonal - 1)
      · obtain ⟨hplace, hnear⟩ := h.tall _ hbelow htall
        rw [show diagonal - 1 + 2 = diagonal + 1 by omega] at hplace hnear
        have hnot' : ¬(before.length ≤ _ ∧ _) := h.notEnd _ hplace
        omega
      · omega
  · omega

/-! ## The way back -/

/-- Pairs of equal atoms, in the order of both contents. -/
structure Kept (before after : List ContentAtom) (kept : List (Nat × Nat)) : Prop where
  ascending : kept.Pairwise fun p q => p.1 < q.1 ∧ p.2 < q.2
  same : ∀ (p : Nat × Nat), p ∈ kept → p.2 < before.length ∧ before[p.2]? = after[p.1]?

/-- Nothing is kept before these places. -/
def KeptFrom (x y : Nat) (kept : List (Nat × Nat)) : Prop :=
  ∀ (p : Nat × Nat), p ∈ kept → y ≤ p.1 ∧ x ≤ p.2

theorem getElem?_commonPrefix {atoms atoms' : List ContentAtom} {i : Nat}
    (hi : i < commonPrefix atoms atoms') : atoms[i]? = atoms'[i]? := by
  have htake : (atoms.take (commonPrefix atoms atoms'))[i]? =
      (atoms'.take (commonPrefix atoms atoms'))[i]? := by rw [take_commonPrefix]
  rwa [List.getElem?_take_of_lt hi, List.getElem?_take_of_lt hi] at htake

theorem keptFrom_spec {previousX : Nat} {previousY : Int} {x y count : Nat}
    {kept : List (Nat × Nat)}
    (hcells : ∀ i, i < count → x + i < before.length ∧ before[x + i]? = after[y + i]?)
    (hprevious : previousX ≤ x ∧ previousY ≤ y ∧ (previousX = x ∨ previousY = y))
    (hkept : Kept before after kept) (hfrom : KeptFrom (x + count) (y + count) kept) :
    Kept before after (keptFrom previousX previousY (x + count) (y + count) kept) ∧
      KeptFrom x y (keptFrom previousX previousY (x + count) (y + count) kept) ∧
      (keptFrom previousX previousY (x + count) (y + count) kept).length = count + kept.length := by
  induction count generalizing kept with
  | zero =>
    have hstop : keptFrom previousX previousY (x + 0) (y + 0) kept = kept := by
      cases x with
      | zero => rfl
      | succ x =>
        cases y with
        | zero => rfl
        | succ y =>
          show (if _ then _ else kept) = kept
          rw [if_neg (by push_cast at hprevious; omega)]
    rw [hstop]
    exact ⟨hkept, hfrom, (Nat.zero_add _).symm⟩
  | succ count ih =>
    have hstep : keptFrom previousX previousY (x + (count + 1)) (y + (count + 1)) kept =
        keptFrom previousX previousY (x + count) (y + count) ((y + count, x + count) :: kept) := by
      have hx : previousX < x + count + 1 := by omega
      have hy : previousY < (y + count : Nat) + 1 := by omega
      exact if_pos ⟨hx, hy⟩
    obtain ⟨hlt, hsame⟩ := hcells count (Nat.lt_succ_self count)
    have hlonger : ((y + count, x + count) :: kept).length = kept.length + 1 := List.length_cons
    rw [hstep, show count + 1 + kept.length = count + (kept.length + 1) by omega, ← hlonger]
    refine ih (fun i hi => hcells i (by omega)) ⟨List.pairwise_cons.mpr ⟨?_, hkept.ascending⟩, ?_⟩ ?_
    · intro p hp
      have hge := hfrom p hp
      dsimp only
      omega
    · refine List.forall_mem_cons.mpr ⟨⟨hlt, hsame⟩, hkept.same⟩
    · refine List.forall_mem_cons.mpr ⟨⟨Nat.le_refl _, Nat.le_refl _⟩, fun p hp => ?_⟩
      have hge := hfrom p hp
      omega

/-- Each frontier is the one before it moved by a round that did not reach the end. -/
inductive Traced (before after : List ContentAtom) : List Frontier → Prop
  | start : Traced before after [.start]
  | round {frontier next : Frontier} {trace : List Frontier} :
    Traced before after (frontier :: trace) →
    (∀ (d : Int), OnRound trace.length d →
      next d = frontier.reached before after trace.length d) →
    Furthest before after trace.length next →
    Traced before after (next :: frontier :: trace)

/-- The atoms passed on a diagonal are equal. -/
theorem cells_reached {frontier : Frontier} {edits : Nat} {diagonal : Int} {y : Nat}
    (hy : (y : Int) = frontier.entered edits diagonal - diagonal) {i : Nat}
    (hi : i < frontier.reached before after edits diagonal - frontier.entered edits diagonal) :
    frontier.entered edits diagonal + i < before.length ∧
      before[frontier.entered edits diagonal + i]? = after[y + i]? := by
  have hcount : frontier.reached before after edits diagonal - frontier.entered edits diagonal =
      commonPrefix (before.drop (frontier.entered edits diagonal)) (after.drop y) := by
    have hy' : (frontier.entered edits diagonal - diagonal).toNat = y := by omega
    have hreached : frontier.reached before after edits diagonal = frontier.entered edits diagonal +
      commonPrefix (before.drop (frontier.entered edits diagonal))
        (after.drop (frontier.entered edits diagonal - diagonal).toNat) := rfl
    rw [hreached, hy']
    omega
  rw [hcount] at hi
  have hsame := getElem?_commonPrefix hi
  have hlength := (commonPrefix_le (before.drop (frontier.entered edits diagonal))
    (after.drop y)).1
  rw [List.length_drop] at hlength
  rw [List.getElem?_drop, List.getElem?_drop] at hsame
  exact ⟨by omega, hsame⟩

theorem backtrack_kept {frontier : Frontier} {trace : List Frontier}
    (h : Traced before after (frontier :: trace)) {diagonal : Int} {x y : Nat}
    {kept : List (Nat × Nat)} (hround : OnRound trace.length diagonal)
    (hx : x = frontier.reached before after trace.length diagonal) (hy : (y : Int) = x - diagonal)
    (hkept : Kept before after kept) (hfrom : KeptFrom x y kept) :
    Kept before after (backtrack (frontier :: trace) x y kept) ∧
      trace.length + 2 * (backtrack (frontier :: trace) x y kept).length =
        x + y + 2 * kept.length := by
  induction trace generalizing frontier diagonal x y kept with
  | nil =>
    cases h
    have hzero : diagonal = 0 := by
      unfold OnRound at hround
      dsimp only [List.length_nil] at hround
      omega
    subst hzero
    have hcells (i : Nat) (hi : i < x) : 0 + i < before.length ∧ before[0 + i]? = after[0 + i]? :=
      @cells_reached before after .start 0 0 0 rfl _
        (by rw [entered_start, Nat.sub_zero]; exact hx ▸ hi)
    have hxy : y = x := by omega
    obtain ⟨hall, -, hlength⟩ := @keptFrom_spec before after 0 0 0 0 x _ hcells (by omega) hkept
      (by rw [Nat.zero_add]; exact hxy ▸ hfrom)
    rw [Nat.zero_add] at hall hlength
    rw [hxy]
    refine ⟨hall, ?_⟩
    show 0 + 2 * (keptFrom 0 0 x x kept).length = _
    omega
  | cons first trace ih =>
    cases h with
    | round hfirst hnext hfurthest =>
    have hlow := hfurthest.low_entered hround
    obtain ⟨previous, hprevious, hplace, hentered⟩ : ∃ previous : Int,
        previous = (if frontier.fromAbove (trace.length + 1) diagonal then diagonal + 1
          else diagonal - 1) ∧ OnRound trace.length previous ∧
        (frontier previous = frontier.entered (trace.length + 1) diagonal ∧
            previous = diagonal + 1 ∨
          frontier previous + 1 = frontier.entered (trace.length + 1) diagonal ∧
            previous = diagonal - 1) := by
      rcases entered_cases frontier hround with ⟨hplace, habove, heq, -⟩ | ⟨hplace, habove, heq, -⟩
      · exact ⟨diagonal + 1, by rw [if_pos habove], hplace, .inl ⟨heq.symm, rfl⟩⟩
      · refine ⟨diagonal - 1, ?_, hplace, .inr ⟨heq.symm, rfl⟩⟩
        rw [if_neg (by rw [habove]; exact Bool.false_ne_true)]
    have hpreviousLow := hfurthest.low _ hplace
    have ⟨y', hy'⟩ : ∃ y' : Nat, (y' : Int) =
        frontier.entered (trace.length + 1) diagonal - diagonal :=
      ⟨_, Int.toNat_of_nonneg (by omega)⟩
    have hle := @entered_le_reached before after frontier (trace.length + 1) diagonal
    have ⟨count, hcount⟩ : ∃ count, count =
        frontier.reached before after (trace.length + 1) diagonal -
          frontier.entered (trace.length + 1) diagonal := ⟨_, rfl⟩
    have hxcount : x = frontier.entered (trace.length + 1) diagonal + count := by
      rw [hx]
      dsimp only [List.length_cons]
      omega
    have hycount : y = y' + count := by omega
    obtain ⟨hkept', hfrom', hlength⟩ := @keptFrom_spec before after (frontier previous)
      (frontier previous - previous) (frontier.entered (trace.length + 1) diagonal) y' count _
      (fun i hi => cells_reached hy' (hcount ▸ hi)) (by omega) hkept
      (by rw [← hxcount, ← hycount]; exact hfrom)
    rw [← hxcount, ← hycount] at hkept' hfrom' hlength
    obtain ⟨hall, hedits⟩ := ih hfirst hplace (hnext _ hplace) (Int.toNat_of_nonneg (by omega)) hkept'
      fun p hp => by
        have hge := hfrom' p hp
        omega
    have hstep : backtrack (frontier :: first :: trace) x y kept =
        backtrack (first :: trace) (frontier previous)
          (((frontier previous : Nat) : Int) - previous).toNat
          (keptFrom (frontier previous) (frontier previous - previous) x y kept) := by
      rw [backtrack, show (x : Int) - y = diagonal by omega, ← hprevious]
    rw [hstep]
    refine ⟨hall, ?_⟩
    rw [hlength] at hedits
    rw [List.length_cons]
    omega

/-! ## The result -/

/-- A search that ends has found a way to the end of both contents. -/
theorem searchTrace_kept {frontier : Frontier} {trace result : List Frontier} {remaining : Nat}
    (h : Traced before after (frontier :: trace))
    (hresult : searchTrace before after frontier trace remaining = some result) :
    Kept before after (backtrack result before.length after.length []) ∧
      result.length + 2 * (backtrack result before.length after.length []).length =
        before.length + after.length + 1 := by
  induction remaining generalizing frontier trace with
  | zero => cases hresult
  | succ remaining ih =>
    obtain ⟨hfound, hnone⟩ := @searchRound_spec before after trace.length
      (diagonals trace.length) frontier (fun _ => mem_diagonals.mp)
    rw [searchTrace] at hresult
    dsimp only at hresult
    split_ifs at hresult with hend
    · cases hresult
      obtain ⟨diagonal, hmem, hatEnd⟩ := hfound hend
      have hround := mem_diagonals.mp hmem
      have hexact : frontier.reached before after trace.length diagonal = before.length ∧
          (before.length : Int) - diagonal = after.length := by
        cases h with
        | start =>
          have hzero : diagonal = 0 := by
            unfold OnRound at hround
            dsimp only [List.length_nil] at hround
            omega
          subst hzero
          have hbound := @reached_le before after .start 0 0 (Int.natCast_nonneg _)
          rw [entered_start] at hbound
          obtain ⟨hbefore, hafter⟩ := hatEnd
          dsimp only [List.length_nil] at hbefore hafter ⊢
          omega
        | round _ _ hfurthest => exact hfurthest.reached_end hround hatEnd
      have hlast : (after.length : Int) = before.length - diagonal := hexact.2.symm
      obtain ⟨hkept, hlength⟩ :=
        backtrack_kept h hround hexact.1.symm hlast ⟨List.Pairwise.nil, nofun⟩ nofun
      refine ⟨hkept, ?_⟩
      rw [List.length_cons]
      rw [List.length_nil] at hlength
      omega
    · obtain ⟨hmoved, -⟩ := hnone (Bool.not_eq_true _ ▸ hend)
      have hnext (d : Int) (hround : OnRound trace.length d) :=
        (hmoved d (mem_diagonals.mpr hround)).2
      have hnotEnd (d : Int) (hround : OnRound trace.length d) :
          ¬AtEnd before after ((searchRound before after trace.length (diagonals trace.length)
            frontier).1 d) d := by
        rw [hnext d hround]
        exact (hmoved d (mem_diagonals.mpr hround)).1
      refine ih (.round h hnext ?_) hresult
      cases h with
      | start => exact furthest_zero hnext hnotEnd
      | round _ _ hfurthest => exact hfurthest.step hnext hnotEnd

theorem kept_search (before after : List ContentAtom) (remaining : Nat) :
    Kept before after (match searchTrace before after .start [] remaining with
      | none => []
      | some trace => backtrack trace before.length after.length []) := by
  split
  · exact ⟨List.Pairwise.nil, nofun⟩
  · next trace htrace => exact (searchTrace_kept .start htrace).1

theorem Origins.traces_of_pairwise {length : Nat} {origins : Origins}
    (hlt : ∀ i, some i ∈ origins → i < length)
    (hpairwise : origins.Pairwise fun a b => ∀ i ∈ a, ∀ j ∈ b, i < j) :
    Traces length origins := by
  have hascending : (origins.filterMap id).Pairwise (· < ·) := List.pairwise_filterMap.mpr hpairwise
  have hsubset : origins.filterMap id ⊆ List.range length := by
    intro i hi
    obtain ⟨origin, horigin, rfl⟩ := List.mem_filterMap.mp hi
    exact List.mem_range.mpr (hlt i horigin)
  have hnodup : (origins.filterMap id).Nodup := hascending.imp fun h => Nat.ne_of_lt h
  exact List.sublist_of_subperm_of_pairwise (List.subperm_of_subset hnodup hsubset)
    (hascending.imp Nat.le_of_lt) List.pairwise_le_range

/-- The part of both contents that a diff has to match. -/
structure Middle (before after : List ContentAtom) (start beforeEnd afterEnd : Nat) : Prop where
  startBefore : start ≤ beforeEnd
  startAfter : start ≤ afterEnd
  endBefore : beforeEnd ≤ before.length
  endAfter : afterEnd ≤ after.length
  rest : before.length - beforeEnd = after.length - afterEnd
  sameStart : ∀ i, i < start → before[i]? = after[i]?
  sameEnd : ∀ i, before[beforeEnd + i]? = after[afterEnd + i]?

theorem middle_common (before after : List ContentAtom) :
    Middle before after (commonPrefix before after)
      (before.length - commonPrefix (before.drop (commonPrefix before after)).reverse
        (after.drop (commonPrefix before after)).reverse)
      (after.length - commonPrefix (before.drop (commonPrefix before after)).reverse
        (after.drop (commonPrefix before after)).reverse) := by
  obtain ⟨hbefore, hafter⟩ := commonPrefix_le before after
  obtain ⟨hstopBefore, hstopAfter⟩ :=
    commonPrefix_le (before.drop (commonPrefix before after)).reverse
      (after.drop (commonPrefix before after)).reverse
  rw [List.length_reverse, List.length_drop] at hstopBefore hstopAfter
  refine ⟨by omega, by omega, by omega, by omega, by omega, fun i hi => getElem?_commonPrefix hi,
    fun i => ?_⟩
  have hend := drop_commonSuffix before after (commonPrefix before after)
  rw [← List.getElem?_drop, ← List.getElem?_drop, hend]

/-- Pairs of equal atoms of the middle. -/
structure MiddleKept (before after : List ContentAtom) (start beforeEnd : Nat)
    (middle : List (Nat × Nat)) : Prop where
  ascending : middle.Pairwise fun p q => p.1 < q.1 ∧ p.2 < q.2
  inside : ∀ (p : Nat × Nat), p ∈ middle → start ≤ p.2 ∧ p.2 < beforeEnd
  same : ∀ (p : Nat × Nat), p ∈ middle → before[p.2]? = after[p.1]?

theorem middleKept_matchMiddle (start beforeEnd afterEnd : Nat) :
    MiddleKept before after start beforeEnd
      (matchMiddle before start beforeEnd after start afterEnd) := by
  have hkept := kept_search ((before.take beforeEnd).drop start) ((after.take afterEnd).drop start)
    (min (((before.take beforeEnd).drop start).length + ((after.take afterEnd).drop start).length)
      diffEditLimit + 1)
  have heq : matchMiddle before start beforeEnd after start afterEnd =
      (match searchTrace ((before.take beforeEnd).drop start) ((after.take afterEnd).drop start)
          .start [] (min (((before.take beforeEnd).drop start).length +
            ((after.take afterEnd).drop start).length) diffEditLimit + 1) with
        | none => []
        | some trace => backtrack trace ((before.take beforeEnd).drop start).length
            ((after.take afterEnd).drop start).length []).map
        fun (y, x) => (start + y, start + x) := by
    unfold matchMiddle
    dsimp only
    split <;> rfl
  have hinside (p : Nat × Nat) (hp : p.2 < ((before.take beforeEnd).drop start).length ∧
      ((before.take beforeEnd).drop start)[p.2]? = ((after.take afterEnd).drop start)[p.1]?) :
      start + p.2 < beforeEnd ∧ before[start + p.2]? = after[start + p.1]? := by
    obtain ⟨hlt, hsame⟩ := hp
    have hafter : p.1 < ((after.take afterEnd).drop start).length := by
      rw [List.getElem?_eq_getElem hlt] at hsame
      exact (List.getElem?_eq_some_iff.mp hsame.symm).1
    rw [List.length_drop, List.length_take] at hlt hafter
    rw [List.getElem?_drop, List.getElem?_drop, List.getElem?_take_of_lt (by omega),
      List.getElem?_take_of_lt (by omega)] at hsame
    exact ⟨by omega, hsame⟩
  rw [heq]
  refine ⟨List.pairwise_map.mpr (hkept.ascending.imp fun hlt => ?_), fun p hp => ?_,
    fun p hp => ?_⟩
  · dsimp only
    omega
  · obtain ⟨q, hq, rfl⟩ := List.mem_map.mp hp
    exact ⟨Nat.le_add_right _ _, (hinside q (hkept.same q hq)).1⟩
  · obtain ⟨q, hq, rfl⟩ := List.mem_map.mp hp
    exact (hinside q (hkept.same q hq)).2

/-- The place an atom of the content after has in the one before. -/
def originAt (start beforeEnd afterEnd : Nat) (middle : List (Nat × Nat)) (index : Nat) :
    Option Nat :=
  if index < start then some index
  else if index < afterEnd then middle.lookup index
  else some (beforeEnd + index - afterEnd)

theorem map_originAt {start beforeEnd afterEnd : Nat} (middle : List (Nat × Nat))
    (h : Middle before after start beforeEnd afterEnd) :
    (List.range start).map some ++
        (List.range' start (afterEnd - start)).map (fun index => middle.lookup index) ++
        (List.range' afterEnd (after.length - afterEnd)).map (fun index =>
          some (beforeEnd + index - afterEnd)) =
      (List.range after.length).map (originAt start beforeEnd afterEnd middle) := by
  have hstart := h.startAfter
  have hend := h.endAfter
  have hrange : List.range after.length = List.range start ++ List.range' start (afterEnd - start) ++
      List.range' afterEnd (after.length - afterEnd) := by
    have hleft := Collections.range'_append_of_le (Nat.zero_le start) hstart
    have hall := Collections.range'_append_of_le (Nat.zero_le afterEnd) hend
    rw [hleft] at hall
    rw [List.range_eq_range', List.range_eq_range']
    exact hall
  rw [hrange, List.map_append, List.map_append]
  congr 1
  · congr 1
    · refine List.map_congr_left fun i hi => ?_
      rw [List.mem_range] at hi
      rw [originAt, if_pos hi]
    · refine List.map_congr_left fun i hi => ?_
      rw [List.mem_range'_1] at hi
      rw [originAt, if_neg (by omega), if_pos (by omega)]
  · refine List.map_congr_left fun i hi => ?_
    rw [List.mem_range'_1] at hi
    rw [originAt, if_neg (by omega), if_neg (by omega)]

theorem originAt_cases {start beforeEnd afterEnd : Nat} {middle : List (Nat × Nat)}
    {index origin : Nat} :
    originAt start beforeEnd afterEnd middle index = some origin →
      (index < start ∧ origin = index) ∨
      (start ≤ index ∧ index < afterEnd ∧ (index, origin) ∈ middle) ∨
      (afterEnd ≤ index ∧ origin = beforeEnd + index - afterEnd) := by
  intro h
  unfold originAt at h
  split_ifs at h with hstart hend
  · exact .inl ⟨hstart, (Option.some.inj h).symm⟩
  · obtain ⟨left, right, heq, -⟩ := List.lookup_eq_some_iff.mp h
    refine .inr (.inl ⟨by omega, hend, ?_⟩)
    rw [heq]
    exact List.mem_append_right _ List.mem_cons_self
  · exact .inr (.inr ⟨by omega, (Option.some.inj h).symm⟩)

theorem MiddleKept.lt {start beforeEnd : Nat} {middle : List (Nat × Nat)}
    (h : MiddleKept before after start beforeEnd middle) {p q : Nat × Nat} (hp : p ∈ middle)
    (hq : q ∈ middle) (hlt : p.1 < q.1) : p.2 < q.2 := by
  have hpairwise := h.ascending
  rw [List.pairwise_iff_getElem] at hpairwise
  obtain ⟨i, hi, rfl⟩ := List.mem_iff_getElem.mp hp
  obtain ⟨j, hj, rfl⟩ := List.mem_iff_getElem.mp hq
  rcases Nat.lt_trichotomy i j with hij | rfl | hij
  · exact (hpairwise i j hi hj hij).2
  · omega
  · have := (hpairwise j i hj hi hij).1
    omega

theorem traces_originAt {start beforeEnd afterEnd : Nat} {middle : List (Nat × Nat)}
    (h : Middle before after start beforeEnd afterEnd)
    (hkept : MiddleKept before after start beforeEnd middle) :
    Origins.Traces before.length
      ((List.range after.length).map (originAt start beforeEnd afterEnd middle)) := by
  obtain ⟨hstart, hstart', hbefore, hafter, hrest, -, -⟩ := h
  refine Origins.traces_of_pairwise (fun i hi => ?_) ?_
  · obtain ⟨index, hindex, horigin⟩ := List.mem_map.mp hi
    rw [List.mem_range] at hindex
    rcases originAt_cases horigin with ⟨hlt, rfl⟩ | ⟨-, -, hmem⟩ | ⟨hge, rfl⟩
    · omega
    · have hinside := (hkept.inside _ hmem).2
      dsimp only at hinside
      omega
    · omega
  · refine List.pairwise_map.mpr (List.pairwise_lt_range.imp ?_)
    intro a b hlt i hi j hj
    -- the places grow through the start, the middle and the end
    rcases originAt_cases hi with ⟨ha, rfl⟩ | ⟨ha, ha', hmem⟩ | ⟨ha, rfl⟩ <;>
      rcases originAt_cases hj with ⟨hb, rfl⟩ | ⟨hb, hb', hmem'⟩ | ⟨hb, rfl⟩
    · exact hlt
    · have hinside := (hkept.inside _ hmem').1
      dsimp only at hinside
      omega
    · omega
    · omega
    · exact hkept.lt hmem hmem' hlt
    · have hinside := (hkept.inside _ hmem).2
      dsimp only at hinside
      omega
    · omega
    · omega
    · omega

theorem same_originAt {start beforeEnd afterEnd : Nat} {middle : List (Nat × Nat)}
    (h : Middle before after start beforeEnd afterEnd)
    (hkept : MiddleKept before after start beforeEnd middle) {index origin : Nat}
    (horigin : originAt start beforeEnd afterEnd middle index = some origin) :
    before[origin]? = after[index]? := by
  rcases originAt_cases horigin with ⟨hlt, rfl⟩ | ⟨-, -, hmem⟩ | ⟨hge, rfl⟩
  · exact h.sameStart _ hlt
  · exact hkept.same _ hmem
  · have hsame := h.sameEnd (index - afterEnd)
    rwa [show afterEnd + (index - afterEnd) = index by omega,
      show beforeEnd + (index - afterEnd) = beforeEnd + index - afterEnd by omega] at hsame

/-- A diff leads from the one content to the other and keeps equal atoms only. -/
theorem turns_diffContent (before after : List ContentAtom) :
    Turns before (diffContent before after) after (diffOrigins before after) := by
  have hmiddle := middle_common before after
  have hkept := @middleKept_matchMiddle before after
    (commonPrefix before after)
    (before.length - commonPrefix (before.drop (commonPrefix before after)).reverse
      (after.drop (commonPrefix before after)).reverse)
    (after.length - commonPrefix (before.drop (commonPrefix before after)).reverse
      (after.drop (commonPrefix before after)).reverse)
  have horigins : diffOrigins before after = _ := map_originAt _ hmiddle
  have htraces := traces_originAt hmiddle hkept
  refine ⟨?_, ?_, fun index origin horigin => ?_⟩
  · unfold diffContent
    rw [horigins]
    exact Origins.changes_changesFromOrigins htraces
  · rw [horigins, List.length_map, List.length_range]
  · rw [horigins, List.getElem?_map, Option.map_eq_some_iff] at horigin
    obtain ⟨i, hi, hplace⟩ := horigin
    obtain ⟨hlt, hrange⟩ := List.getElem?_eq_some_iff.mp hi
    rw [List.getElem_range] at hrange
    exact same_originAt hmiddle hkept (hrange ▸ hplace)

/-- A draft is rebased only through changes that lead from its source to the content. -/
theorem rebaseBuffer_turns {buffer : ContentBuffer} {content : List InlineContent}
    {mapping : List ContentRangeChange} {result : ContentBuffer × List ContentRangeChange} :
    rebaseBuffer buffer content mapping = some result →
      ∃ origins, Turns buffer.source mapping (contentAtoms content) origins := by
  intro h
  unfold rebaseBuffer at h
  obtain ⟨origins, horigins, h⟩ := Option.bind_eq_some_iff.mp h
  dsimp only at h
  split_ifs at h with hlength hsame
  refine ⟨origins, horigins, not_not.mp hlength, fun index origin horigin => ?_⟩
  have hlt : index < (contentAtoms content).length :=
    not_not.mp hlength ▸ (List.getElem?_eq_some_iff.mp horigin).1
  by_contra hne
  refine hsame (List.any_eq_true.mpr ⟨(some origin, (contentAtoms content)[index]), ?_, ?_⟩)
  · refine List.mem_iff_getElem?.mpr ⟨index, ?_⟩
    rw [List.getElem?_zip_eq_some]
    exact ⟨horigin, List.getElem?_eq_getElem hlt⟩
  · refine decide_eq_true ?_
    rwa [← List.getElem?_eq_getElem hlt]

end Neoseq.Editor
