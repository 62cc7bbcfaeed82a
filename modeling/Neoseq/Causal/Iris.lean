import Neoseq.Query.Rdf
import Neoseq.Text.Substitute

/-! The entity IRIs of one graph in a query source, rewritten to those of another. The
source text falls into pieces between the marks of an entity IRI, and each piece
begins with the graph and the kind of its entity. -/

namespace Neoseq.Causal
open Domain Query Text

/-! ## The rewriting -/

def entityKinds : List String := ["page", "block", "tag"]

/-- `replacen(":page:", ":tag:", 1)` on the prefix of a tag, as the IRI of a tag is
that of a page. -/
def aliasIri (kind iri : String) : List Char :=
  if kind = "tag" then substituteFirst (":page:".toList, ":tag:".toList) iri.toList
  else iri.toList

def replacements (source target : GraphId) : List (Rule Char) :=
  entityKinds.map fun kind =>
    (aliasIri kind (entityIri source kind ""), aliasIri kind (entityIri target kind ""))

/-- One pass over a source for each replacement. -/
def rewriteText (source target : GraphId) (text : String) : String :=
  String.ofList (substituteEach (replacements source target) text.toList)

/-! ## What it is for -/

/-- The prefix of the IRIs of one kind of entities in a graph. -/
def iriPrefix (graph : GraphId) (kind : String) : List Char :=
  entityNs.toList ++ ((encodeComponent graph.asStr).toList ++ ':' :: (kind.toList ++ [':']))

/-- Every IRI of the source graph becomes that of the same entity in the target. -/
def retarget (source target : GraphId) (text : String) : String :=
  String.ofList (substitute
    (entityKinds.map fun kind => (iriPrefix source kind, iriPrefix target kind)) text.toList)

/-! ## Heads of pieces -/

/-- The graph and the kind of an entity, percent-encoded. -/
abbrev Head := List Char × List Char

/-- No part holds the separator. -/
def Head.Plain (h : Head) : Prop := ':' ∉ h.1 ∧ ':' ∉ h.2

def Head.render (h : Head) : List Char := h.1 ++ ':' :: (h.2 ++ [':'])

theorem append_separator_inj {a b : List Char} {r s : List Char} (ha : ':' ∉ a) (hb : ':' ∉ b)
    (h : a ++ ':' :: r = b ++ ':' :: s) : a = b ∧ r = s := by
  induction a generalizing b with
  | nil =>
    cases b with
    | nil => exact ⟨rfl, (List.cons.inj h).2⟩
    | cons c b =>
      obtain ⟨hc, _⟩ := List.cons.inj h
      exact absurd (hc ▸ List.mem_cons_self ..) hb
  | cons c a ih =>
    cases b with
    | nil =>
      obtain ⟨hc, _⟩ := List.cons.inj h
      exact absurd (hc ▸ List.mem_cons_self ..) ha
    | cons d b =>
      obtain ⟨rfl, hrest⟩ := List.cons.inj h
      obtain ⟨rfl, hr⟩ := ih (fun hm => ha (List.mem_cons_of_mem _ hm))
        (fun hm => hb (List.mem_cons_of_mem _ hm)) hrest
      exact ⟨rfl, hr⟩

/-- A piece begins with one head at most. -/
theorem Head.render_append_inj {h k : Head} {r s : List Char} (hh : h.Plain) (hk : k.Plain)
    (he : h.render ++ r = k.render ++ s) : h = k ∧ r = s := by
  unfold Head.render at he
  simp only [List.append_assoc, List.cons_append, List.nil_append] at he
  obtain ⟨hfirst, he⟩ := append_separator_inj hh.1 hk.1 he
  obtain ⟨hsecond, he⟩ := append_separator_inj hh.2 hk.2 he
  exact ⟨Prod.ext hfirst hsecond, he⟩

theorem Head.render_prefix_iff {h k : Head} {r : List Char} (hh : h.Plain) (hk : k.Plain) :
    h.render <+: k.render ++ r ↔ h = k := by
  constructor
  · rintro ⟨s, hs⟩
    exact (Head.render_append_inj hh hk hs).1
  · rintro rfl
    exact List.prefix_append ..

/-- What a head becomes. -/
abbrev Move := Head × Head

def Move.rule (m : Move) : Rule Char := (m.1.render, m.2.render)

def Move.Plain (m : Move) : Prop := m.1.Plain ∧ m.2.Plain

/-- The first move of a head, all at once. -/
def moveFirst (moves : List Move) (h : Head) : Head :=
  match moves.find? fun m => m.1 = h with
  | some m => m.2
  | none => h

/-- The moves of a head, one after another. -/
def moveEach (moves : List Move) (h : Head) : Head := moves.foldl (fun h m => moveFirst [m] h) h

theorem moveFirst_nil (h : Head) : moveFirst [] h = h := rfl

theorem moveFirst_cons (m : Move) (moves : List Move) (h : Head) :
    moveFirst (m :: moves) h = if m.1 = h then m.2 else moveFirst moves h := by
  unfold moveFirst
  rw [List.find?_cons]
  by_cases he : m.1 = h <;> simp [he]

theorem plain_moveFirst {moves : List Move} (hm : ∀ m ∈ moves, m.Plain) {h : Head}
    (hh : h.Plain) : (moveFirst moves h).Plain := by
  unfold moveFirst
  split
  · next m hfind => exact (hm m (List.mem_of_find?_eq_some hfind)).2
  · exact hh

theorem plain_moveEach {moves : List Move} (hm : ∀ m ∈ moves, m.Plain) {h : Head}
    (hh : h.Plain) : (moveEach moves h).Plain := by
  induction moves generalizing h with
  | nil => exact hh
  | cons m moves ih =>
    refine ih (fun x hx => hm x (List.mem_cons_of_mem _ hx)) (plain_moveFirst (fun x hx => ?_) hh)
    rw [List.mem_singleton.mp hx]
    exact hm m (List.mem_cons_self ..)

/-- On a piece with a head the rules move the head. -/
theorem swapHead_render {moves : List Move} (hm : ∀ m ∈ moves, m.Plain) {h : Head} (hh : h.Plain)
    (r : List Char) :
    swapHead (moves.map Move.rule) (h.render ++ r) = (moveFirst moves h).render ++ r := by
  have hrule : ruleAt (moves.map Move.rule) (h.render ++ r) =
      (moves.find? fun m => m.1 = h).map Move.rule := by
    unfold ruleAt
    rw [List.find?_map]
    congr 1
    induction moves with
    | nil => rfl
    | cons m moves ih =>
      have ih := ih fun x hx => hm x (List.mem_cons_of_mem _ hx)
      have hfirst : decide (m.rule.1 <+: h.render ++ r) = decide (m.1 = h) :=
        decide_eq_decide.mpr (Head.render_prefix_iff (hm m (List.mem_cons_self ..)).1 hh)
      rw [List.find?_cons, List.find?_cons, ih, Function.comp_apply, hfirst]
  unfold swapHead moveFirst
  rw [hrule]
  cases hfind : moves.find? fun m => m.1 = h with
  | none => rfl
  | some m =>
    have hhead : m.1 = h := of_decide_eq_true (List.find?_some (p := fun m : Move => m.1 = h) hfind)
    show m.2.render ++ (h.render ++ r).drop m.1.render.length = _
    rw [hhead, List.drop_left]

/-- A piece without a head is kept. -/
theorem swapHead_of_headless {moves : List Move} (hm : ∀ m ∈ moves, m.Plain) {piece : List Char}
    (h : ∀ k : Head, k.Plain → ¬k.render <+: piece) :
    swapHead (moves.map Move.rule) piece = piece := by
  have hnone : ruleAt (moves.map Move.rule) piece = none := by
    refine ruleAt_eq_none.mpr fun r hr => ?_
    obtain ⟨m, hmem, rfl⟩ := List.mem_map.mp hr
    exact h m.1 (hm m hmem).1
  unfold swapHead
  rw [hnone]

theorem swapEach_render {moves : List Move} (hm : ∀ m ∈ moves, m.Plain) {h : Head} (hh : h.Plain)
    (r : List Char) :
    swapEach (moves.map Move.rule) (h.render ++ r) = (moveEach moves h).render ++ r := by
  induction moves generalizing h with
  | nil => rfl
  | cons m moves ih =>
    have hfirst : ∀ x ∈ [m], x.Plain := fun x hx => by
      rw [List.mem_singleton.mp hx]
      exact hm m (List.mem_cons_self ..)
    show swapEach (moves.map Move.rule) (swapHead ([m].map Move.rule) (h.render ++ r)) = _
    rw [swapHead_render hfirst hh, ih (fun x hx => hm x (List.mem_cons_of_mem _ hx))
      (plain_moveFirst hfirst hh)]
    rfl

theorem swapEach_of_headless {moves : List Move} (hm : ∀ m ∈ moves, m.Plain) {piece : List Char}
    (h : ∀ k : Head, k.Plain → ¬k.render <+: piece) :
    swapEach (moves.map Move.rule) piece = piece := by
  induction moves with
  | nil => rfl
  | cons m moves ih =>
    have hfirst : ∀ x ∈ [m], x.Plain := fun x hx => by
      rw [List.mem_singleton.mp hx]
      exact hm m (List.mem_cons_self ..)
    show swapEach (moves.map Move.rule) (swapHead ([m].map Move.rule) piece) = _
    rw [swapHead_of_headless hfirst h]
    exact ih fun x hx => hm x (List.mem_cons_of_mem _ hx)

/-! ## The marks of an entity IRI -/

abbrev marker : List Char := entityNs.toList

def pageKind : List Char := "page".toList
def blockKind : List Char := "block".toList
def tagKind : List Char := "tag".toList

theorem unbordered_marker : Unbordered marker := by
  have h : ∀ v ∈ marker.tails, v ∈ marker.inits → v = [] ∨ v = marker := by decide
  intro v hs hp
  exact h v ((List.mem_tails v marker).mpr hs) ((List.mem_inits v marker).mpr hp)

theorem marker_ne_nil : marker ≠ [] := by decide

/-- A prefix of the marks that ends in a separator ends otherwise than a kind. -/
theorem last_of_prefix_marker : ∀ v ∈ marker.inits, v.getLast? = some ':' →
    v.dropLast.getLast? = some 'n' ∨ v.dropLast.getLast? = some 'q' ∨
      v.dropLast.getLast? = some 'y' := by decide

/-- The kinds that heads have, by their last letters. -/
def Head.OfKind (h : Head) : Prop := ∃ w c, h.2 = w ++ [c] ∧ c ≠ 'n' ∧ c ≠ 'q' ∧ c ≠ 'y'

theorem guarded_render {h : Head} (hp : h.Plain) (hk : h.OfKind) : Guarded marker h.render := by
  obtain ⟨a, b⟩ := h
  obtain ⟨w, c, rfl, hn, hq, hy⟩ := hk
  intro v hv hne
  have hform : Head.render (a, w ++ [c]) = (a ++ ':' :: w) ++ [c, ':'] := by
    simp [Head.render]
  have hlast : v = [':'] ∨ ∃ u, v = u ++ [c, ':'] := by
    rw [hform] at hv
    rcases suffix_append_cases hv with hv | ⟨u, _, rfl⟩
    · rcases List.suffix_cons_iff.mp hv with rfl | hv
      · exact .inr ⟨[], rfl⟩
      · rcases List.suffix_cons_iff.mp hv with rfl | hv
        · exact .inl rfl
        · exact absurd (List.suffix_nil.mp hv) hne
    · exact .inr ⟨u, rfl⟩
  constructor
  · intro hpre
    have hmark := last_of_prefix_marker v ((List.mem_inits v marker).mpr hpre)
    rcases hlast with rfl | ⟨u, rfl⟩
    · exact absurd (hmark rfl) (by simp)
    · have hu : u ++ [c, ':'] = (u ++ [c]) ++ [':'] := by simp
      rw [hu, List.getLast?_concat, List.dropLast_concat, List.getLast?_concat] at hmark
      simp [hn, hq, hy] at hmark
  · intro hpre
    have hcount : marker.count ':' ≤ (Head.render (a, w ++ [c])).count ':' :=
      (hpre.sublist.trans hv.sublist).count_le ':'
    have hthree : marker.count ':' = 3 := by decide
    unfold Head.render at hcount
    rw [List.count_append, List.count_cons_self, List.count_append,
      List.count_eq_zero_of_not_mem hp.1, List.count_eq_zero_of_not_mem hp.2, hthree] at hcount
    simp at hcount

/-! ## Percent-encoded graphs -/

def graphPart (graph : GraphId) : List Char := (encodeComponent graph.asStr).toList

theorem hexDigit_ne_separator : ∀ n < 16, hexDigit n ≠ ':' := by decide

theorem not_mem_encodeByte (b : UInt8) : ':' ∉ encodeByte b := by
  unfold encodeByte
  split
  · next h =>
    intro hm
    have hn : b.toNat = 0x3a := by
      rw [← toNat_ofNat_of_lt b.toNat_lt, ← List.mem_singleton.mp hm]
      rfl
    obtain rfl : b = 0x3a := UInt8.toNat_inj.mp hn
    exact absurd h (by decide)
  · have hlt := b.toNat_lt
    have hhi := hexDigit_ne_separator (b.toNat / 16) (by omega)
    have hlo := hexDigit_ne_separator (b.toNat % 16) (by omega)
    simp [hhi.symm, hlo.symm]

theorem not_mem_graphPart (graph : GraphId) : ':' ∉ graphPart graph := by
  unfold graphPart encodeComponent
  rw [String.toList_ofList]
  intro h
  obtain ⟨b, _, hb⟩ := List.mem_flatMap.mp h
  exact not_mem_encodeByte b hb

theorem graphPart_injective {a b : GraphId} (h : graphPart a = graphPart b) : a = b :=
  OpaqueString.ext (encodeComponent_injective (String.toList_injective h))

theorem graphPart_eq_page_iff {graph : GraphId} :
    graphPart graph = pageKind ↔ graph.asStr = "page" := by
  have hpage : encodeComponent "page" = "page" := by decide
  constructor
  · intro h
    exact encodeComponent_injective ((String.toList_injective h).trans hpage.symm)
  · intro h
    unfold graphPart
    rw [h, hpage]
    rfl

theorem graphPart_eq_tag_iff {graph : GraphId} :
    graphPart graph = tagKind ↔ graph.asStr = "tag" := by
  have htag : encodeComponent "tag" = "tag" := by decide
  constructor
  · intro h
    exact encodeComponent_injective ((String.toList_injective h).trans htag.symm)
  · intro h
    unfold graphPart
    rw [h, htag]
    rfl

/-! ## The rewriting as moves of heads -/

section

variable (s t : List Char)

/-- The head that the alias of a tag prefix has: where the graph is called as the
kind of a page, the graph is what gets replaced. -/
def aliasHead : Head := if s = pageKind then (tagKind, pageKind) else (s, tagKind)

/-- What the rewriting does to the head of a piece, one after another. -/
def moves : List Move :=
  [((s, pageKind), (t, pageKind)), ((s, blockKind), (t, blockKind)), (aliasHead s, aliasHead t)]

/-- What it is to do, all at once. -/
def intendedMoves : List Move :=
  [((s, pageKind), (t, pageKind)), ((s, blockKind), (t, blockKind)), ((s, tagKind), (t, tagKind))]

/-- The heads that the two treat differently. -/
def affectedHeads : List Head :=
  if s = pageKind then
    [(pageKind, tagKind), (tagKind, pageKind)] ++
      if t = tagKind then [(pageKind, pageKind)] else []
  else if t = pageKind then [(s, tagKind)] else []

variable {s t}

theorem moveEach_eq_iff (hne : s ≠ t) (h : Head) :
    moveEach (moves s t) h = moveFirst (intendedMoves s t) h ↔ h ∉ affectedHeads s t := by
  obtain ⟨a, b⟩ := h
  have hpb : pageKind ≠ blockKind := by decide
  have hpt : pageKind ≠ tagKind := by decide
  have hbt : blockKind ≠ tagKind := by decide
  simp only [moveEach, moves, intendedMoves, affectedHeads, aliasHead, List.foldl_cons,
    List.foldl_nil, moveFirst_cons, moveFirst_nil]
  generalize pageKind = p, blockKind = q, tagKind = k at hpb hpt hbt ⊢
  by_cases hs : s = p
  · grind
  · grind

/-- A second time over the same text makes nothing right or wrong. -/
theorem moveEach_twice_eq_iff (hne : s ≠ t) (h : Head) :
    moveEach (moves s t) (moveEach (moves s t) h) = moveFirst (intendedMoves s t) h ↔
      h ∉ affectedHeads s t := by
  obtain ⟨a, b⟩ := h
  have hpb : pageKind ≠ blockKind := by decide
  have hpt : pageKind ≠ tagKind := by decide
  have hbt : blockKind ≠ tagKind := by decide
  simp only [moveEach, moves, intendedMoves, affectedHeads, aliasHead, List.foldl_cons,
    List.foldl_nil, moveFirst_cons, moveFirst_nil]
  generalize pageKind = p, blockKind = q, tagKind = k at hpb hpt hbt ⊢
  by_cases hs : s = p
  · grind
  · by_cases ht : t = p
    · grind
    · grind

theorem moveFirst_eq_self_iff (hne : s ≠ t) (h : Head) :
    moveFirst (intendedMoves s t) h = h ↔
      h ≠ (s, pageKind) ∧ h ≠ (s, blockKind) ∧ h ≠ (s, tagKind) := by
  obtain ⟨a, b⟩ := h
  simp only [intendedMoves, moveFirst_cons, moveFirst_nil]
  grind

/-! ## The rewriting of a text -/

theorem plain_head {graph : List Char} (hg : ':' ∉ graph) {kind : List Char}
    (hk : kind ∈ [pageKind, blockKind, tagKind]) : Head.Plain (graph, kind) := by
  have h : ∀ kind ∈ [pageKind, blockKind, tagKind], ':' ∉ kind := by decide
  exact ⟨hg, h kind hk⟩

theorem ofKind_head (graph : List Char) {kind : List Char}
    (hk : kind ∈ [pageKind, blockKind, tagKind]) : Head.OfKind (graph, kind) := by
  simp only [List.mem_cons, List.not_mem_nil, or_false] at hk
  rcases hk with rfl | rfl | rfl
  · exact ⟨"pag".toList, 'e', (by decide : pageKind = _), by decide⟩
  · exact ⟨"bloc".toList, 'k', (by decide : blockKind = _), by decide⟩
  · exact ⟨"ta".toList, 'g', (by decide : tagKind = _), by decide⟩

/-- The heads of entity IRIs. -/
structure Head.Regular (h : Head) : Prop where
  plain : h.Plain
  ofKind : h.OfKind

theorem regular_head {graph : List Char} (hg : ':' ∉ graph) {kind : List Char}
    (hk : kind ∈ [pageKind, blockKind, tagKind]) : Head.Regular (graph, kind) :=
  ⟨plain_head hg hk, ofKind_head graph hk⟩

theorem regular_aliasHead {graph : List Char} (hg : ':' ∉ graph) :
    (aliasHead graph).Regular := by
  unfold aliasHead
  split
  · exact regular_head (by decide) (by decide)
  · exact regular_head hg (by decide)

theorem regular_moves (hs : ':' ∉ s) (ht : ':' ∉ t) :
    ∀ m ∈ moves s t, m.1.Regular ∧ m.2.Regular := by
  intro m hm
  simp only [moves, List.mem_cons, List.not_mem_nil, or_false] at hm
  rcases hm with rfl | rfl | rfl
  · exact ⟨regular_head hs (by decide), regular_head ht (by decide)⟩
  · exact ⟨regular_head hs (by decide), regular_head ht (by decide)⟩
  · exact ⟨regular_aliasHead hs, regular_aliasHead ht⟩

theorem regular_intendedMoves (hs : ':' ∉ s) (ht : ':' ∉ t) :
    ∀ m ∈ intendedMoves s t, m.1.Regular ∧ m.2.Regular := by
  intro m hm
  simp only [intendedMoves, List.mem_cons, List.not_mem_nil, or_false] at hm
  rcases hm with rfl | rfl | rfl <;>
    exact ⟨regular_head hs (by decide), regular_head ht (by decide)⟩

theorem regular_affectedHeads (hs : ':' ∉ s) : ∀ h ∈ affectedHeads s t, h.Regular := by
  have hp : ':' ∉ pageKind := by decide
  have ht : ':' ∉ tagKind := by decide
  intro h hh
  unfold affectedHeads at hh
  split at hh
  · rcases List.mem_append.mp hh with hh | hh
    · rcases List.mem_cons.mp hh with rfl | hh
      · exact regular_head hp (by decide)
      · obtain rfl := List.mem_singleton.mp hh
        exact regular_head ht (by decide)
    · split at hh
      · obtain rfl := List.mem_singleton.mp hh
        exact regular_head hp (by decide)
      · cases hh
  · split at hh
    · obtain rfl := List.mem_singleton.mp hh
      exact regular_head hs (by decide)
    · cases hh

end

theorem toList_entityIri_page (graph : GraphId) :
    (entityIri graph "page" "").toList = marker ++ Head.render (graphPart graph, pageKind) := by
  have hempty : encodeComponent "" = "" := by decide
  unfold entityIri Head.render graphPart pageKind
  simp [hempty]

theorem toList_entityIri_block (graph : GraphId) :
    (entityIri graph "block" "").toList = marker ++ Head.render (graphPart graph, blockKind) := by
  have hempty : encodeComponent "" = "" := by decide
  unfold entityIri Head.render graphPart blockKind
  simp [hempty]

/-- No kind of a page stands in the first marks of an IRI. -/
theorem not_prefix_of_lead {v rest : List Char} (hv : v <:+ "urn:neoseq:entity".toList)
    (hne : v ≠ []) : ¬ (':' :: (pageKind ++ [':'])) <+: v ++ ':' :: rest := by
  have h : ∀ v ∈ "urn:neoseq:entity".toList.tails, v = [] ∨ v.head? ≠ some ':' ∨
      v.tail.head? = some 'n' ∨ v.tail.head? = some 'e' := by decide
  intro hpre
  cases v with
  | nil => exact hne rfl
  | cons c v =>
    obtain ⟨hc, hpre⟩ := List.cons_prefix_cons.mp hpre
    rcases h (c :: v) ((List.mem_tails ..).mpr hv) with h | h | h | h
    · cases h
    · exact h (by rw [← hc]; rfl)
    · cases v with
      | nil => cases h
      | cons d v =>
        obtain rfl := Option.some.inj h
        exact absurd (List.cons_prefix_cons.mp hpre).1 (by decide)
    · cases v with
      | nil => cases h
      | cons d v =>
        obtain rfl := Option.some.inj h
        exact absurd (List.cons_prefix_cons.mp hpre).1 (by decide)

/-- The first kind of a page in the prefix of a tag is the graph itself where it is
called so. -/
theorem aliasIri_tag (graph : GraphId) :
    aliasIri "tag" (entityIri graph "tag" "") = marker ++ (aliasHead (graphPart graph)).render := by
  have htag : entityIri graph "tag" "" = entityIri graph "page" "" := rfl
  have hplain := not_mem_graphPart graph
  unfold aliasIri
  rw [if_pos rfl, htag, toList_entityIri_page]
  generalize graphPart graph = g at hplain ⊢
  have hmarker : marker = "urn:neoseq:entity".toList ++ [':'] := by decide
  have hpage : ":page:".toList = ':' :: (pageKind ++ [':']) := by decide
  have htag : ":tag:".toList = ':' :: (tagKind ++ [':']) := by decide
  have hform : ∀ k, marker ++ Head.render (g, k) =
      "urn:neoseq:entity".toList ++ ':' :: (g ++ ':' :: (k ++ [':'])) := by
    intro k
    rw [hmarker, List.append_assoc]
    rfl
  have hform' : ∀ k, marker ++ Head.render (tagKind, k) =
      "urn:neoseq:entity".toList ++ ((':' :: (tagKind ++ [':'])) ++ (k ++ [':'])) := by
    intro k
    rw [hmarker, List.append_assoc]
    simp only [Head.render, List.cons_append, List.append_assoc, List.nil_append]
  rw [hform, hpage, htag]
  generalize hr : ((':' :: (pageKind ++ [':']), ':' :: (tagKind ++ [':'])) : Rule Char) = r
  have hone : r.1 = ':' :: (pageKind ++ [':']) := by rw [← hr]
  have htwo : r.2 = ':' :: (tagKind ++ [':']) := by rw [← hr]
  have hne : r.1 ≠ [] := hone ▸ List.cons_ne_nil _ _
  rw [substituteFirst_append fun v hv hv0 => by
    rw [hone]
    exact not_prefix_of_lead hv hv0]
  unfold aliasHead
  by_cases hg : g = pageKind
  · subst hg
    have hfirst : ':' :: (pageKind ++ ':' :: (pageKind ++ [':'])) =
        r.1 ++ (pageKind ++ [':']) := by
      rw [hone]
      simp only [List.cons_append, List.append_assoc, List.nil_append]
    rw [if_pos rfl, hfirst, substituteFirst_prefix hne, htwo, hform']
  · rw [if_neg hg, ← hone]
    have hskip : ∀ v, v <:+ ':' :: g → v ≠ [] → ¬r.1 <+: v ++ r.1 := by
      intro v hv hv0 hpre
      rw [hone] at hpre
      rcases List.suffix_cons_iff.mp hv with rfl | hv
      · obtain ⟨rest, hrest⟩ := hpre
        have hsplit : pageKind ++ ':' :: rest = g ++ ':' :: (pageKind ++ [':']) := by
          simpa using hrest
        exact hg (append_separator_inj (by decide) hplain hsplit).1.symm
      · cases v with
        | nil => exact hv0 rfl
        | cons c v =>
          obtain ⟨hc, _⟩ := List.cons_prefix_cons.mp hpre
          exact hplain (hv.subset (hc ▸ List.mem_cons_self ..))
    have hlast := substituteFirst_prefix hne []
    rw [List.append_nil, List.append_nil] at hlast
    rw [← List.cons_append, substituteFirst_append hskip, hlast, htwo, hform]
    rfl

theorem replacements_eq (source target : GraphId) :
    replacements source target =
      behind marker ((moves (graphPart source) (graphPart target)).map Move.rule) := by
  unfold replacements entityKinds behind moves
  simp only [List.map_cons, List.map_nil, aliasIri_tag]
  simp only [aliasIri, toList_entityIri_page, toList_entityIri_block, Move.rule, String.reduceEq,
    if_false]

/-- The prefixes that the rewriting treats differently from what it is for: none but
where one of the graphs is called as the kind of a page. -/
def affectedPrefixes (source target : GraphId) : List (List Char) :=
  if source.asStr = "page" then
    [iriPrefix source "tag", entityNs.toList ++ "tag:page:".toList] ++
      if target.asStr = "tag" then [iriPrefix source "page"] else []
  else if target.asStr = "page" then [iriPrefix source "tag"] else []

theorem affectedPrefixes_eq (source target : GraphId) :
    affectedPrefixes source target =
      (affectedHeads (graphPart source) (graphPart target)).map fun h => marker ++ h.render := by
  have htag : "tag:page:".toList = Head.render (tagKind, pageKind) := by decide
  unfold affectedPrefixes affectedHeads
  simp only [graphPart_eq_page_iff, graphPart_eq_tag_iff, htag]
  by_cases hs : source.asStr = "page"
  · have hstart : ∀ kind, iriPrefix source kind = marker ++ Head.render (pageKind, kind.toList) := by
      intro kind
      rw [← graphPart_eq_page_iff.mpr hs]
      rfl
    rw [if_pos hs, if_pos hs, hstart, hstart]
    by_cases ht : target.asStr = "tag"
    · rw [if_pos ht, if_pos ht]
      rfl
    · rw [if_neg ht, if_neg ht]
      rfl
  · rw [if_neg hs, if_neg hs]
    by_cases ht : target.asStr = "page"
    · rw [if_pos ht, if_pos ht]
      rfl
    · rw [if_neg ht, if_neg ht]
      rfl

/-- A piece begins with the head of an entity IRI or with none. -/
theorem head_cases (piece : List Char) :
    (∃ h : Head, h.Plain ∧ ∃ r, piece = h.render ++ r) ∨
      ∀ k : Head, k.Plain → ¬k.render <+: piece := by
  by_cases h : ∃ k : Head, k.Plain ∧ k.render <+: piece
  · obtain ⟨k, hk, r, hr⟩ := h
    exact .inl ⟨k, hk, r, hr.symm⟩
  · exact .inr fun k hk hp => h ⟨k, hk, hp⟩

section

variable {source target : GraphId}

theorem rewriteText_render (source target : GraphId) {p : Pieces Char} (hp : p.Clean marker) :
    rewriteText source target (String.ofList (p.render marker)) =
        String.ofList ((p.mapTails (swapEach
          ((moves (graphPart source) (graphPart target)).map Move.rule))).render marker) ∧
      (p.mapTails (swapEach
        ((moves (graphPart source) (graphPart target)).map Move.rule))).Clean marker := by
  have hregular := regular_moves (not_mem_graphPart source) (not_mem_graphPart target)
  unfold rewriteText
  rw [replacements_eq, String.toList_ofList]
  have hguard : ∀ r ∈ (moves (graphPart source) (graphPart target)).map Move.rule,
      Guarded marker r.1 ∧ Guarded marker r.2 := by
    intro r hr
    obtain ⟨m, hm, rfl⟩ := List.mem_map.mp hr
    obtain ⟨hfrom, hto⟩ := hregular m hm
    exact ⟨guarded_render hfrom.plain hfrom.ofKind, guarded_render hto.plain hto.ofKind⟩
  have h := substituteEach_render unbordered_marker marker_ne_nil hguard hp
  exact ⟨congrArg String.ofList h.1, h.2⟩

theorem retarget_render (source target : GraphId) {p : Pieces Char} (hp : p.Clean marker) :
    retarget source target (String.ofList (p.render marker)) =
        String.ofList ((p.mapTails (swapHead
          ((intendedMoves (graphPart source) (graphPart target)).map Move.rule))).render marker) ∧
      (p.mapTails (swapHead
        ((intendedMoves (graphPart source) (graphPart target)).map Move.rule))).Clean marker := by
  have hregular := regular_intendedMoves (not_mem_graphPart source) (not_mem_graphPart target)
  have hrules : (entityKinds.map fun kind => (iriPrefix source kind, iriPrefix target kind)) =
      behind marker ((intendedMoves (graphPart source) (graphPart target)).map Move.rule) := rfl
  have hguard : ∀ r ∈ (intendedMoves (graphPart source) (graphPart target)).map Move.rule,
      Guarded marker r.1 ∧ Guarded marker r.2 := by
    intro r hr
    obtain ⟨m, hm, rfl⟩ := List.mem_map.mp hr
    obtain ⟨hfrom, hto⟩ := hregular m hm
    exact ⟨guarded_render hfrom.plain hfrom.ofKind, guarded_render hto.plain hto.ofKind⟩
  unfold retarget
  rw [hrules, String.toList_ofList]
  exact ⟨congrArg String.ofList (substitute_render unbordered_marker marker_ne_nil
    (fun r hr => (hguard r hr).1) hp), clean_swapHead (fun r hr => (hguard r hr).2) hp⟩

/-- Two ways to change the pieces of a text agree where they agree on each piece. -/
theorem ofList_render_inj {f g : List Char → List Char} {p : Pieces Char}
    (hf : (p.mapTails f).Clean marker) (hg : (p.mapTails g).Clean marker) :
    String.ofList ((p.mapTails f).render marker) = String.ofList ((p.mapTails g).render marker) ↔
      ∀ t ∈ p.tails, f t = g t := by
  constructor
  · intro h
    have h := Pieces.render_injective unbordered_marker hf hg (String.ofList_injective h)
    exact List.map_inj_left.mp (congrArg Pieces.tails h)
  · intro h
    have htails : p.tails.map f = p.tails.map g := List.map_inj_left.mpr h
    unfold Pieces.mapTails
    rw [htails]

/-- A list of regular heads stands in a text where no piece begins with one. -/
theorem not_infix_heads_iff {p : Pieces Char} (hp : p.Clean marker) {heads : List Head}
    (hheads : ∀ h ∈ heads, h.Regular) :
    (∀ x ∈ heads.map fun h => marker ++ h.render, ¬x <:+: p.render marker) ↔
      ∀ t ∈ p.tails, ∀ h ∈ heads, ¬h.render <+: t := by
  have hone : ∀ h ∈ heads, (marker ++ h.render <:+: p.render marker ↔
      ∃ t ∈ p.tails, h.render <+: t) := fun h hh =>
    infix_render_iff unbordered_marker marker_ne_nil hp
      (guarded_render (hheads h hh).plain (hheads h hh).ofKind)
  constructor
  · intro h t ht k hk hpre
    exact h _ (List.mem_map_of_mem hk) ((hone k hk).mpr ⟨t, ht, hpre⟩)
  · intro h x hx hinfix
    obtain ⟨k, hk, rfl⟩ := List.mem_map.mp hx
    obtain ⟨t, ht, hpre⟩ := (hone k hk).mp hinfix
    exact h t ht k hk hpre

theorem graphPart_ne (hne : target ≠ source) : graphPart source ≠ graphPart target :=
  fun h => hne (graphPart_injective h).symm

/-- The heads of a piece after the moves, once or twice. -/
theorem piece_iff (f : List Char → List Char) (move : Head → Head) {heads : List Head}
    {s t : List Char} (hs : ':' ∉ s) (ht : ':' ∉ t)
    (hplain : ∀ h : Head, h.Plain → (move h).Plain)
    (hf : ∀ (h : Head) (r : List Char), h.Plain → f (h.render ++ r) = (move h).render ++ r)
    (hkeep : ∀ piece, (∀ k : Head, k.Plain → ¬k.render <+: piece) → f piece = piece)
    (hmove : ∀ h, move h = moveFirst (intendedMoves s t) h ↔ h ∉ heads)
    (hheads : ∀ h ∈ heads, h.Plain) (piece : List Char) :
    f piece = swapHead ((intendedMoves s t).map Move.rule) piece ↔
      ∀ h ∈ heads, ¬h.render <+: piece := by
  have hintended : ∀ m ∈ intendedMoves s t, m.Plain := fun m hm =>
    ⟨((regular_intendedMoves hs ht) m hm).1.plain, ((regular_intendedMoves hs ht) m hm).2.plain⟩
  rcases head_cases piece with ⟨h, hh, r, rfl⟩ | hnone
  · rw [hf h r hh, swapHead_render hintended hh]
    constructor
    · intro he k hk hpre
      obtain rfl := (Head.render_prefix_iff (hheads k hk) hh).mp hpre
      have hsame := (Head.render_append_inj (hplain k hh) (plain_moveFirst hintended hh) he).1
      exact (hmove k).mp hsame hk
    · intro hno
      rw [(hmove h).mpr fun hmem => hno h hmem (List.prefix_append ..)]
  · rw [hkeep piece hnone, swapHead_of_headless hintended hnone]
    exact iff_of_true rfl fun h hh => hnone h (hheads h hh)

/-- The rewriting does what it is for on a text exactly where no affected prefix
stands in it. -/
theorem rewriteText_eq_iff (hne : target ≠ source) (text : String) :
    rewriteText source target text = retarget source target text ↔
      ∀ x ∈ affectedPrefixes source target, ¬x <:+: text.toList := by
  obtain ⟨p, hp, hr⟩ := Pieces.exists_render marker_ne_nil text.toList
  have htext : text = String.ofList (p.render marker) := by rw [hr, String.ofList_toList]
  have hs := not_mem_graphPart source
  have ht := not_mem_graphPart target
  have hmoves : ∀ m ∈ moves (graphPart source) (graphPart target), m.Plain := fun m hm =>
    ⟨(regular_moves hs ht m hm).1.plain, (regular_moves hs ht m hm).2.plain⟩
  obtain ⟨hrewrite, hclean⟩ := rewriteText_render source target hp
  obtain ⟨hretarget, hclean'⟩ := retarget_render source target hp
  rw [htext, hrewrite, hretarget, String.toList_ofList, ofList_render_inj hclean hclean',
    affectedPrefixes_eq, not_infix_heads_iff hp (regular_affectedHeads hs)]
  refine forall₂_congr fun piece _ => piece_iff _ _ hs ht
    (fun h hh => plain_moveEach hmoves hh) (fun h r hh => swapEach_render hmoves hh r)
    (fun piece hnone => swapEach_of_headless hmoves hnone) (moveEach_eq_iff (graphPart_ne hne))
    (fun h hh => (regular_affectedHeads hs h hh).plain) piece

/-- Nor where it runs over the text twice. -/
theorem rewriteText_twice_eq_iff (hne : target ≠ source) (text : String) :
    rewriteText source target (rewriteText source target text) = retarget source target text ↔
      ∀ x ∈ affectedPrefixes source target, ¬x <:+: text.toList := by
  obtain ⟨p, hp, hr⟩ := Pieces.exists_render marker_ne_nil text.toList
  have htext : text = String.ofList (p.render marker) := by rw [hr, String.ofList_toList]
  have hs := not_mem_graphPart source
  have ht := not_mem_graphPart target
  have hmoves : ∀ m ∈ moves (graphPart source) (graphPart target), m.Plain := fun m hm =>
    ⟨(regular_moves hs ht m hm).1.plain, (regular_moves hs ht m hm).2.plain⟩
  obtain ⟨hrewrite, hclean⟩ := rewriteText_render source target hp
  obtain ⟨hagain, hclean₂⟩ := rewriteText_render source target hclean
  obtain ⟨hretarget, hclean'⟩ := retarget_render source target hp
  have htwice : ∀ f : List Char → List Char, (p.mapTails f).mapTails f = p.mapTails (f ∘ f) :=
    fun f => congrArg (Pieces.mk p.head) (List.map_map ..)
  rw [htwice] at hagain hclean₂
  rw [htext, hrewrite, hagain, hretarget, String.toList_ofList, ofList_render_inj hclean₂ hclean',
    affectedPrefixes_eq, not_infix_heads_iff hp (regular_affectedHeads hs)]
  refine forall₂_congr fun piece _ => piece_iff _ _ hs ht
    (fun h hh => plain_moveEach hmoves (plain_moveEach hmoves hh)) (fun h r hh => ?_)
    (fun piece hnone => ?_) (moveEach_twice_eq_iff (graphPart_ne hne))
    (fun h hh => (regular_affectedHeads hs h hh).plain) piece
  · rw [Function.comp_apply, swapEach_render hmoves hh,
      swapEach_render hmoves (plain_moveEach hmoves hh)]
  · rw [Function.comp_apply, swapEach_of_headless hmoves hnone, swapEach_of_headless hmoves hnone]

/-- A text that is left alone is what it is to be exactly where it holds no IRI of the
source graph. -/
theorem eq_retarget_iff (hne : target ≠ source) (text : String) :
    text = retarget source target text ↔
      ∀ kind ∈ entityKinds, ¬iriPrefix source kind <:+: text.toList := by
  obtain ⟨p, hp, hr⟩ := Pieces.exists_render marker_ne_nil text.toList
  have htext : text = String.ofList (p.render marker) := by rw [hr, String.ofList_toList]
  have hs := not_mem_graphPart source
  have ht := not_mem_graphPart target
  let heads : List Head := [(graphPart source, pageKind), (graphPart source, blockKind),
    (graphPart source, tagKind)]
  have hheads : ∀ h ∈ heads, h.Regular := by
    intro h hh
    simp only [heads, List.mem_cons, List.not_mem_nil, or_false] at hh
    rcases hh with rfl | rfl | rfl <;> exact regular_head hs (by decide)
  obtain ⟨hretarget, hclean'⟩ := retarget_render source target hp
  have hid : p.mapTails id = p := congrArg (Pieces.mk p.head) (List.map_id _)
  have hstartes : (∀ kind ∈ entityKinds, ¬iriPrefix source kind <:+: text.toList) ↔
      ∀ x ∈ heads.map fun h => marker ++ h.render, ¬x <:+: text.toList := by
    have hmap : (heads.map fun h => marker ++ h.render) = entityKinds.map (iriPrefix source) := rfl
    rw [hmap, List.forall_mem_map]
  have hkeep := ofList_render_inj (f := id) (p := p) (hid.symm ▸ hp) hclean'
  rw [hid] at hkeep
  rw [hstartes, htext, hretarget, String.toList_ofList, hkeep, not_infix_heads_iff hp hheads]
  refine forall₂_congr fun piece _ => piece_iff id id hs ht (fun h hh => hh)
    (fun h r hh => rfl) (fun piece hnone => rfl) (fun h => ?_)
    (fun h hh => (hheads h hh).plain) piece
  rw [id, eq_comm, moveFirst_eq_self_iff (graphPart_ne hne)]
  simp only [heads, List.mem_cons, List.not_mem_nil, or_false, not_or]

/-- What is rewritten as intended holds no IRI of the source graph. -/
theorem not_infix_retarget (hne : target ≠ source) (text : String) :
    ∀ kind ∈ entityKinds, ¬iriPrefix source kind <:+: (retarget source target text).toList := by
  refine (eq_retarget_iff hne _).mp ?_
  obtain ⟨p, hp, hr⟩ := Pieces.exists_render marker_ne_nil text.toList
  have htext : text = String.ofList (p.render marker) := by rw [hr, String.ofList_toList]
  have hs := not_mem_graphPart source
  have ht := not_mem_graphPart target
  have hintended : ∀ m ∈ intendedMoves (graphPart source) (graphPart target), m.Plain :=
    fun m hm => ⟨(regular_intendedMoves hs ht m hm).1.plain,
      (regular_intendedMoves hs ht m hm).2.plain⟩
  obtain ⟨hretarget, hclean⟩ := retarget_render source target hp
  obtain ⟨hagain, hclean₂⟩ := retarget_render source target hclean
  have htwice : ∀ f : List Char → List Char, (p.mapTails f).mapTails f = p.mapTails (f ∘ f) :=
    fun f => congrArg (Pieces.mk p.head) (List.map_map ..)
  rw [htwice] at hagain hclean₂
  rw [htext, hretarget, hagain, ofList_render_inj hclean hclean₂]
  intro piece _
  rw [Function.comp_apply]
  rcases head_cases piece with ⟨h, hh, r, rfl⟩ | hnone
  · rw [swapHead_render hintended hh, swapHead_render hintended (plain_moveFirst hintended hh)]
    have hstays : moveFirst (intendedMoves (graphPart source) (graphPart target))
        (moveFirst (intendedMoves (graphPart source) (graphPart target)) h) =
          moveFirst (intendedMoves (graphPart source) (graphPart target)) h := by
      have hparts := graphPart_ne hne
      obtain ⟨a, b⟩ := h
      simp only [intendedMoves, moveFirst_cons, moveFirst_nil]
      grind
    rw [hstays]
  · rw [swapHead_of_headless hintended hnone, swapHead_of_headless hintended hnone]

end

end Neoseq.Causal
