import Neoseq.Query.Candidates
import Neoseq.Query.Compile
import Neoseq.Query.Injection
import Neoseq.Query.Sandbox

/-! Text candidates. A call that every solution must pass narrows the subject that carries its
text to the candidates of the index, as a table joined to the query. The call itself stays, so
the table may only leave out what the call refuses: it has the solutions it had without. -/

namespace Neoseq.Query
open Collections Solutions Sparql

/-! ## What a query demands of its texts -/

/-- The pattern below the modifiers of a query. -/
def queryCorePattern : GraphPattern → GraphPattern
  | .orderBy inner _ | .project inner _ | .distinct inner | .reduced inner | .slice inner _ _
  | .group inner _ _ => queryCorePattern inner
  | pattern => pattern

/-- The subject that carries the text of a variable, and the variables that have several. -/
structure TextSubjects where
  subjects : HashMap Variable Variable
  ambiguous : Finset Variable

/-- The text and the subject of a pattern that asks for a content or a name. -/
def textPair (pattern : TriplePattern) : Option (Variable × Variable) :=
  match pattern.subject, pattern.predicate, pattern.object with
  | .var subject, .namedNode predicate, .var content =>
    if predicate ≠ neoContent ∧ predicate ≠ neoName then none else some (content, subject)
  | _, _, _ => none

def TextSubjects.push (texts : TextSubjects) (pattern : TriplePattern) : TextSubjects :=
  match textPair pattern with
  | none => texts
  | some (content, subject) =>
    { subjects := texts.subjects.insert content subject
      ambiguous :=
        if (texts.subjects.lookup content).any fun previous => decide (previous ≠ subject) then
          insert content texts.ambiguous
        else texts.ambiguous }

def collectMandatoryTextSubjects : GraphPattern → TextSubjects → TextSubjects
  | .bgp patterns, texts => patterns.foldl TextSubjects.push texts
  | .join left right, texts =>
    collectMandatoryTextSubjects right (collectMandatoryTextSubjects left texts)
  | .leftJoin left _ _, texts | .lateral left _, texts | .minus left _, texts =>
    collectMandatoryTextSubjects left texts
  | .filter _ inner, texts | .extend inner _ _, texts => collectMandatoryTextSubjects inner texts
  | _, texts => texts

def collectConjunctiveTextCalls : Expression → List TextCall
  | .binary .and left right =>
    collectConjunctiveTextCalls left ++ collectConjunctiveTextCalls right
  | .functionCall (.custom function) [.var content, needle] =>
    if function = matchesText then
      match needle with
      | .literal (.literal value _ _) => [⟨content, .literal value⟩]
      | .var name => [⟨content, .binding name⟩]
      | _ => []
    else []
  | _ => []

def collectMandatoryTextCalls : GraphPattern → List TextCall
  | .join left right => collectMandatoryTextCalls left ++ collectMandatoryTextCalls right
  | .leftJoin left _ _ | .lateral left _ | .minus left _ => collectMandatoryTextCalls left
  | .filter expr inner => collectConjunctiveTextCalls expr ++ collectMandatoryTextCalls inner
  | .extend inner _ _ => collectMandatoryTextCalls inner
  | _ => []

def resolveTextNeedle (call : TextCall) (bindings : BTreeMap String RdfTerm) : Option String :=
  match call.needle with
  | .literal value => some value
  | .binding name => bindingLiteral name bindings

/-! ## The tables -/

def maxInjectedTextCandidates : Nat := 5000

section
variable (unicode : Unicode) (ix : TextIndex) (normalized : NormalizedText)

/-- Whether a table of so many candidates is worth joining. -/
def narrows (candidates : List String) : Bool :=
  candidates.isEmpty || !(decide (maxInjectedTextCandidates ≤ candidates.length) ||
    decide (ix.bySubject.keys.card < candidates.length * 4))

/-- The subject a call narrows, with its candidates. -/
def callCandidates (texts : TextSubjects) (bindings : BTreeMap String RdfTerm) (call : TextCall) :
    Option (Variable × BTreeSet String) := do
  let subject ← texts.subjects.lookup call.content
  if call.content ∈ texts.ambiguous then none
  else
    let needle ← resolveTextNeedle call bindings
    let candidates ← ix.candidates unicode needle normalized
    if narrows ix candidates then some (subject, (∅ : BTreeSet String).extend candidates) else none

/-- `BTreeSet::retain`. -/
def retain (current candidates : BTreeSet String) : BTreeSet String :=
  BTreeMap.filterMapValues current fun candidate _ =>
    if candidate ∈ candidates then some () else none

/-- The candidates of each subject: those of all its calls. -/
def candidatesBySubject (texts : TextSubjects) (bindings : BTreeMap String RdfTerm)
    (calls : List TextCall) : BTreeMap Variable (BTreeSet String) :=
  calls.foldl (fun bySubject call =>
    match callCandidates unicode ix normalized texts bindings call with
    | none => bySubject
    | some (subject, candidates) =>
      match bySubject.get subject with
      | some current => bySubject.insert subject (retain current candidates)
      | none => bySubject.insert subject candidates) ∅

/-- A column of entities. -/
def candidateRows (lex : Lexical) (candidates : BTreeSet String) :
    Except QueryError (List (List (Option Term))) :=
  candidates.toList.mapM fun candidate => do
    let node ← named lex candidate
    return [some (.namedNode node)]

/-- The table of each subject is joined to the query. -/
def injectTables (lex : Lexical) (pattern : GraphPattern)
    (tables : List (Variable × BTreeSet String)) : Except QueryError GraphPattern :=
  tables.foldlM (fun pattern table => do
    let rows ← candidateRows lex table.2
    return injectValues [table.1] rows pattern) pattern

def injectCandidates (lex : Lexical) (bindings : BTreeMap String RdfTerm)
    (pattern : GraphPattern) : Except QueryError GraphPattern :=
  let core := queryCorePattern pattern
  let texts := collectMandatoryTextSubjects core ⟨∅, ∅⟩
  let calls := collectMandatoryTextCalls core
  injectTables lex pattern (candidatesBySubject unicode ix normalized texts bindings calls).entries

def injectTextCandidates (lex : Lexical) (query : Sparql.Query)
    (bindings : BTreeMap String RdfTerm) : Except QueryError Sparql.Query :=
  match query with
  | .select dataset pattern =>
    (injectCandidates unicode ix normalized lex bindings pattern).map (.select dataset)
  | .ask dataset pattern =>
    (injectCandidates unicode ix normalized lex bindings pattern).map (.ask dataset)
  | query => .ok query

end

/-! ## Bindings -/

/-- What the libraries further decide about texts: which of them name variables, and the
language tag that a text spells. -/
structure TermSyntax extends Lexical where
  checkVariable : String → Except String Unit
  languageTag : String → Except String String

def rdfLangString : String := "http://www.w3.org/1999/02/22-rdf-syntax-ns#langString"

def toGroundTerm (terms : TermSyntax) : RdfTerm → Except QueryError Term
  | .iri value => (named terms.toLexical value).map .namedNode
  | .literal value _ (some language) =>
    match terms.languageTag language with
    | .ok tag => .ok (.literal value rdfLangString (some tag))
    | .error e => .error (.invalidTerm e)
  | .literal value datatype none =>
    (named terms.toLexical datatype).map fun datatype => .literal value datatype none

def bindingVariable (terms : TermSyntax) (name : String) : Except QueryError Variable :=
  match terms.checkVariable (trimSigil name) with
  | .ok () => .ok (trimSigil name)
  | .error e => .error (.invalidTerm e)

/-- The columns and the row of the bindings. -/
def bindingRow (terms : TermSyntax) : List (String × RdfTerm) →
    Except QueryError (List Variable × List (Option Term))
  | [] => .ok ([], [])
  | (name, value) :: rest => do
    let column ← bindingVariable terms name
    let term ← toGroundTerm terms value
    let (columns, row) ← bindingRow terms rest
    return (column :: columns, some term :: row)

def injectQueryBindings (terms : TermSyntax) (query : Sparql.Query)
    (bindings : BTreeMap String RdfTerm) : Except QueryError Sparql.Query :=
  if bindings.entries.isEmpty then .ok query
  else do
    let (columns, row) ← bindingRow terms bindings.entries
    match query with
    | .select dataset pattern => .ok (.select dataset (injectValues columns [row] pattern))
    | .ask dataset pattern => .ok (.ask dataset (injectValues columns [row] pattern))
    | _ => .error (.disallowed "only SELECT and ASK accept bindings")

/-! ## The matcher -/

section
variable (unicode : Unicode) (lowercase : String → String)

/-- `str::trim`. -/
def trimText (value : String) : String :=
  let rest := value.toList.dropWhile unicode.isWhitespace
  String.ofList (rest.reverse.dropWhile unicode.isWhitespace).reverse

/-- Whether a symbol of a needle belongs to a word rather than joining two. -/
def hasAttachedSymbol (needle : String) : Bool :=
  let characters := needle.toList
  let word (offset : Option Nat) : Bool :=
    (offset.bind fun offset => characters[offset]?).any unicode.isAlphanumeric
  characters.zipIdx.any fun (character, index) =>
    !unicode.isAlphanumeric character && !unicode.isWhitespace character &&
      !(word (if index = 0 then none else some (index - 1)) && word (some (index + 1)))

/-- The normalized needles of the calls, known before a query runs. -/
def normalizedNeedles (calls : List TextCall) (bindings : BTreeMap String RdfTerm) :
    HashMap String String :=
  (calls.filterMap fun call => resolveTextNeedle call bindings).foldl
    (fun needles needle => needles.insert needle (normalizeText unicode needle)) ∅

/-- The custom function of a query; it fails on terms other than two literals. -/
def textMatches (needles : HashMap String String) (normalized : NormalizedText) :
    List Term → Option Bool
  | [.literal content _ _, .literal needle _ _] =>
    let normalizedNeedle := (needles.lookup needle).getD (normalizeText unicode needle)
    -- a needle of symbols has no words, it is looked for as it is spelled
    if normalizedNeedle = "" then
      some (decide (trimText unicode needle ≠ "") && containsText content (trimText unicode needle))
    else
      let text := (normalized.lookup content).getD (normalizeText unicode content)
      some (containsText text normalizedNeedle &&
        (!hasAttachedSymbol unicode needle ||
          containsText (lowercase content) (lowercase (trimText unicode needle))))
  | _ => none

/-- An evaluation with the custom function registered. -/
def withMatcher (I : Interpretation) (needles : HashMap String String)
    (normalized : NormalizedText) : Interpretation :=
  { I with
    custom := fun function terms =>
      if function = matchesText then
        textMatches unicode lowercase needles normalized terms = some true
      else I.custom function terms }

end

/-! ## What the solutions of a pattern carry -/

variable {I : Interpretation}

/-- A mandatory pattern asks for the text of a subject. -/
def BindsText (content subject : Variable) : GraphPattern → Prop
  | .bgp patterns => ∃ pattern ∈ patterns, textPair pattern = some (content, subject)
  | .join left right => BindsText content subject left ∨ BindsText content subject right
  | .leftJoin left _ _ | .lateral left _ | .minus left _ => BindsText content subject left
  | .filter _ inner | .extend inner _ _ => BindsText content subject inner
  | _ => False

/-- A solution has a text that is stored, and the subject of it. -/
def CarriesText (I : Interpretation) (content subject : Variable) (μ : Solution) : Prop :=
  ∃ triple ∈ I.triples, (triple.predicate = neoContent ∨ triple.predicate = neoName) ∧
    μ subject = some (.namedNode triple.subject) ∧ μ content = some triple.object

theorem CarriesText.mono {content subject : Variable} {μ ν : Solution}
    (h : CarriesText I content subject ν) (hextends : Extends μ ν) :
    CarriesText I content subject μ := by
  obtain ⟨triple, htriple, hpredicate, hsubject, hcontent⟩ := h
  exact ⟨triple, htriple, hpredicate, hextends _ _ hsubject, hextends _ _ hcontent⟩

theorem extends_extended (name : Variable) (value : Option Term) (μ : Solution) :
    Extends (Interpretation.extended name value μ) μ := by
  intro other a ha
  unfold Interpretation.extended
  rw [ha]
  rfl

theorem textPair_eq_some {pattern : TriplePattern} {content subject : Variable}
    (h : textPair pattern = some (content, subject)) :
    ∃ predicate, pattern = ⟨.var subject, .namedNode predicate, .var content⟩ ∧
      (predicate = neoContent ∨ predicate = neoName) := by
  obtain ⟨s, p, o⟩ := pattern
  unfold textPair at h
  dsimp only at h
  split at h
  · next subject' predicate content' =>
    split at h
    · cases h
    · next hknown =>
      cases h
      exact ⟨predicate, rfl, by tauto⟩
  · cases h

/-- The condition of an optional part is one on what it extends. -/
theorem eval_leftJoin (I : Interpretation) (right : GraphPattern)
    (expression : Option Expression) :
    ∃ holds, ∀ left, I.eval (.leftJoin left right expression) =
      leftJoin holds (I.eval left) (I.eval right) := by
  cases expression with
  | none => exact ⟨_, fun left => by rw [Interpretation.eval]⟩
  | some expression => exact ⟨_, fun left => by rw [Interpretation.eval]⟩

theorem eval_leftJoin_extends {left right : GraphPattern} {expression : Option Expression}
    {μ : Solution} (hμ : μ ∈ I.eval (.leftJoin left right expression)) :
    ∃ ν ∈ I.eval left, Extends μ ν := by
  obtain ⟨holds, heval⟩ := eval_leftJoin I right expression
  rw [heval] at hμ
  exact mem_leftJoin hμ

theorem eval_lateral_extends {left right : GraphPattern} {μ : Solution}
    (hμ : μ ∈ I.eval (.lateral left right)) : ∃ ν ∈ I.eval left, Extends μ ν := by
  rw [Interpretation.eval] at hμ
  obtain ⟨ν, hν, hμ⟩ := Multiset.mem_bind.mp hμ
  obtain ⟨ν', -, -, -, rfl⟩ := mem_extensions.mp hμ
  exact ⟨ν, hν, extends_merge_left ν ν'⟩

theorem eval_extend_extends {inner : GraphPattern} {name : Variable} {expression : Expression}
    {μ : Solution} (hμ : μ ∈ I.eval (.extend inner name expression)) :
    ∃ ν ∈ I.eval inner, Extends μ ν := by
  rw [Interpretation.eval] at hμ
  obtain ⟨ν, hν, rfl⟩ := Multiset.mem_map.mp hμ
  exact ⟨ν, hν, extends_extended name _ ν⟩

open scoped Classical in
theorem eval_filter_mem {expr : Expression} {inner : GraphPattern} {μ : Solution} :
    μ ∈ I.eval (.filter expr inner) ↔ μ ∈ I.eval inner ∧ I.passes μ expr := by
  rw [Interpretation.eval]
  exact Multiset.mem_filter

theorem eval_minus_mem {left right : GraphPattern} {μ : Solution}
    (hμ : μ ∈ I.eval (.minus left right)) : μ ∈ I.eval left := by
  rw [Interpretation.eval] at hμ
  exact (mem_minus.mp hμ).1

/-- The solutions of a mandatory pattern that asks for a text carry it. -/
theorem BindsText.carries {content subject : Variable} {pattern : GraphPattern}
    (h : BindsText content subject pattern) {μ : Solution} (hμ : μ ∈ I.eval pattern) :
    CarriesText I content subject μ := by
  fun_induction BindsText content subject pattern generalizing μ with
  | case1 patterns =>
    obtain ⟨pattern, hpattern, hpair⟩ := h
    obtain ⟨σ, hσ, rfl⟩ := Multiset.mem_map.mp hμ
    obtain ⟨triple, htriple, τ, hmatch, hextends⟩ := (mem_instances hσ).1 pattern hpattern
    obtain ⟨predicate, rfl, hknown⟩ := textPair_eq_some hpair
    obtain ⟨a, b, c, ha, hb, hc, hac, hab, rfl⟩ := mem_matchTriple hmatch
    cases ha
    cases hc
    unfold matchPredicate at hb
    dsimp only at hb
    split_ifs at hb with hpredicate
    refine ⟨triple, htriple, hpredicate ▸ hknown, hextends _ _ ?_, hextends _ _ ?_⟩
    · exact extends_merge_left _ _ _ _ (extends_merge_left _ _ _ _ (if_pos rfl))
    · exact hac.extends_merge_right _ _ (if_pos rfl)
  | case2 left right ihl ihr =>
    obtain ⟨ν, hν, ν', hν', hcompatible, rfl⟩ := mem_join.mp hμ
    rcases h with h | h
    · exact (ihl h hν).mono (extends_merge_left ν ν')
    · exact (ihr h hν').mono hcompatible.extends_merge_right
  | case3 left right expression ih =>
    obtain ⟨ν, hν, hextends⟩ := eval_leftJoin_extends hμ
    exact (ih h hν).mono hextends
  | case4 left right ih =>
    obtain ⟨ν, hν, hextends⟩ := eval_lateral_extends hμ
    exact (ih h hν).mono hextends
  | case5 left right ih => exact ih h (eval_minus_mem hμ)
  | case6 expr inner ih => exact ih h (eval_filter_mem.mp hμ).1
  | case7 inner name expression ih =>
    obtain ⟨ν, hν, hextends⟩ := eval_extend_extends hμ
    exact (ih h hν).mono hextends
  | case8 => exact h.elim

/-! ## What every solution passes -/

/-- A term is the needle of a call. -/
def IsNeedle (μ : Solution) (term : Term) : TextNeedle → Prop
  | .literal value => ∃ datatype language, term = .literal value datatype language
  | .binding name => μ name = some term

def CallHolds (I : Interpretation) (call : TextCall) (μ : Solution) : Prop :=
  ∃ content needle, μ call.content = some content ∧ IsNeedle μ needle call.needle ∧
    I.custom matchesText [content, needle]

theorem CallHolds.mono {call : TextCall} {μ ν : Solution} (h : CallHolds I call ν)
    (hextends : Extends μ ν) : CallHolds I call μ := by
  obtain ⟨content, needle, hcontent, hneedle, hholds⟩ := h
  refine ⟨content, needle, hextends _ _ hcontent, ?_, hholds⟩
  cases hcall : call.needle with
  | literal value => rwa [hcall] at hneedle
  | binding name =>
    rw [hcall] at hneedle
    exact hextends _ _ hneedle

theorem passes_call {function : String} {content : Variable} {needle : Expression} {μ : Solution}
    (h : I.passes μ (.functionCall (.custom function) [.var content, needle])) :
    ∃ a b, μ content = some a ∧ I.term μ needle = some b ∧ I.custom function [a, b] := by
  obtain ⟨terms, hterms, hholds⟩ := h
  rw [List.mapM_cons, List.mapM_cons, List.mapM_nil] at hterms
  obtain ⟨a, ha, hterms⟩ := Option.bind_eq_some_iff.mp hterms
  obtain ⟨rest, hrest, hterms⟩ := Option.bind_eq_some_iff.mp hterms
  obtain ⟨b, hb, hrest⟩ := Option.bind_eq_some_iff.mp hrest
  cases hrest
  cases hterms
  exact ⟨a, b, ha, hb, hholds⟩

/-- A filter passes what every call of its conjunction holds for. -/
theorem callHolds_of_passes {expression : Expression} {call : TextCall}
    (hcall : call ∈ collectConjunctiveTextCalls expression) {μ : Solution}
    (hpasses : I.passes μ expression) : CallHolds I call μ := by
  fun_induction collectConjunctiveTextCalls expression with
  | case1 left right ihl ihr =>
    obtain ⟨hleft, hright⟩ := hpasses
    rcases List.mem_append.mp hcall with hcall | hcall
    · exact ihl hcall hleft
    · exact ihr hcall hright
  | case2 content value datatype language =>
    obtain rfl := List.mem_singleton.mp hcall
    obtain ⟨a, b, ha, hb, hholds⟩ := passes_call hpasses
    exact ⟨a, b, ha, ⟨datatype, language, (Option.some.inj hb).symm⟩, hholds⟩
  | case3 content name =>
    obtain rfl := List.mem_singleton.mp hcall
    obtain ⟨a, b, ha, hb, hholds⟩ := passes_call hpasses
    exact ⟨a, b, ha, hb, hholds⟩
  | case4 | case5 | case6 => cases hcall

theorem callHolds_of_mem {pattern : GraphPattern} {call : TextCall}
    (hcall : call ∈ collectMandatoryTextCalls pattern) {μ : Solution}
    (hμ : μ ∈ I.eval pattern) : CallHolds I call μ := by
  fun_induction collectMandatoryTextCalls pattern generalizing μ with
  | case1 left right ihl ihr =>
    obtain ⟨ν, hν, ν', hν', hcompatible, rfl⟩ := mem_join.mp hμ
    rcases List.mem_append.mp hcall with hcall | hcall
    · exact (ihl hcall hν).mono (extends_merge_left ν ν')
    · exact (ihr hcall hν').mono hcompatible.extends_merge_right
  | case2 left right expression ih =>
    obtain ⟨ν, hν, hextends⟩ := eval_leftJoin_extends hμ
    exact (ih hcall hν).mono hextends
  | case3 left right ih =>
    obtain ⟨ν, hν, hextends⟩ := eval_lateral_extends hμ
    exact (ih hcall hν).mono hextends
  | case4 left right ih => exact ih hcall (eval_minus_mem hμ)
  | case5 expr inner ih =>
    obtain ⟨hinner, hpasses⟩ := eval_filter_mem.mp hμ
    rcases List.mem_append.mp hcall with hcall | hcall
    · exact callHolds_of_passes hcall hpasses
    · exact ih hcall hinner
  | case6 inner name expression ih =>
    obtain ⟨ν, hν, hextends⟩ := eval_extend_extends hμ
    exact (ih hcall hν).mono hextends
  | case7 => cases hcall

/-! ## Tables joined one after another -/

abbrev Table := List Variable × List (List (Option Term))

def injectAll (tables : List Table) (pattern : GraphPattern) : GraphPattern :=
  tables.foldl (fun pattern table => injectValues table.1 table.2 pattern) pattern

/-- Tables go down through what one table goes down through. -/
theorem injectAll_through (through : GraphPattern → GraphPattern)
    (h : ∀ names rows inner, injectValues names rows (through inner) =
      through (injectValues names rows inner)) (tables : List Table) (inner : GraphPattern) :
    injectAll tables (through inner) = through (injectAll tables inner) := by
  induction tables generalizing inner with
  | nil => rfl
  | cons table tables ih =>
    unfold injectAll at ih ⊢
    rw [List.foldl_cons, List.foldl_cons, h, ih]

/-- A pattern that a table stops above. -/
def Stops (pattern : GraphPattern) : Prop :=
  ∀ names rows, injectValues names rows pattern = .join (.values names rows) pattern

noncomputable def joinAll (I : Interpretation) (tables : List Table) (A : Multiset Solution) :
    Multiset Solution :=
  tables.foldl (fun A table => Solutions.join (I.eval (.values table.1 table.2)) A) A

theorem Stops.eval_injectAll {pattern : GraphPattern} (h : Stops pattern) (tables : List Table) :
    I.eval (injectAll tables pattern) = joinAll I tables (I.eval pattern) := by
  induction tables generalizing pattern with
  | nil => rfl
  | cons table tables ih =>
    unfold injectAll joinAll at ih ⊢
    rw [List.foldl_cons, List.foldl_cons, h, ih (fun _ _ => rfl), Interpretation.eval]

/-- A solution extends a row of each table. -/
def OnRows (I : Interpretation) (tables : List Table) (μ : Solution) : Prop :=
  ∀ table ∈ tables, ∃ ρ ∈ I.eval (.values table.1 table.2), Extends μ ρ

theorem OnRows.mono {tables : List Table} {μ ν : Solution} (h : OnRows I tables ν)
    (hextends : Extends μ ν) : OnRows I tables μ := by
  intro table htable
  obtain ⟨ρ, hρ, hrow⟩ := h table htable
  exact ⟨ρ, hρ, hextends.trans hrow⟩

theorem mem_joinAll {tables : List Table} {A : Multiset Solution} {μ : Solution}
    (hμ : μ ∈ joinAll I tables A) :
    (∃ ν ∈ A, Extends μ ν) ∧ OnRows I tables μ := by
  induction tables generalizing A with
  | nil => exact ⟨⟨μ, hμ, fun _ _ h => h⟩, nofun⟩
  | cons table tables ih =>
    obtain ⟨⟨ν, hν, hextends⟩, hall⟩ := ih hμ
    obtain ⟨ρ, hρ, ν', hν', hcompatible, rfl⟩ := mem_join.mp hν
    refine ⟨⟨ν', hν', hextends.trans hcompatible.extends_merge_right⟩, ?_⟩
    exact List.forall_mem_cons.mpr ⟨⟨ρ, hρ, hextends.trans (extends_merge_left ρ ν')⟩, hall⟩

open scoped Classical in
theorem joinAll_filter_among {subject : Variable} {terms : List Term} {A : Multiset Solution}
    (hbound : ∀ μ ∈ A, ∃ a, μ subject = some a) (tables : List Table) :
    joinAll I tables (A.filter (Among subject terms)) =
      (joinAll I tables A).filter (Among subject terms) := by
  induction tables generalizing A with
  | nil => rfl
  | cons table tables ih =>
    unfold joinAll at ih ⊢
    rw [List.foldl_cons, List.foldl_cons, join_filter_among _ hbound, ih]
    intro μ hμ
    obtain ⟨ρ, -, ν, hν, hcompatible, rfl⟩ := mem_join.mp hμ
    obtain ⟨a, ha⟩ := hbound ν hν
    exact ⟨a, hcompatible.extends_merge_right _ _ ha⟩

/-! ## A table of one mandatory variable -/

theorem BindsText.inject {content subject : Variable} {pattern : GraphPattern}
    (h : BindsText content subject pattern) (names : List Variable)
    (rows : List (List (Option Term))) :
    BindsText content subject (injectValues names rows pattern) := by
  fun_induction BindsText content subject pattern with
  | case1 => exact .inr h
  | case2 => exact .inr h
  | case3 left right expression ih => exact ih h
  | case4 left right ih => exact .inr h
  | case5 left right ih => exact ih h
  | case6 expr inner ih => exact ih h
  | case7 inner name expression ih => exact ih h
  | case8 => exact h.elim

theorem mem_calls_inject {call : TextCall} {pattern : GraphPattern}
    (h : call ∈ collectMandatoryTextCalls pattern) (names : List Variable)
    (rows : List (List (Option Term))) :
    call ∈ collectMandatoryTextCalls (injectValues names rows pattern) := by
  fun_induction collectMandatoryTextCalls pattern with
  | case1 => exact List.mem_append_right _ h
  | case2 left right expression ih => exact ih h
  | case3 left right ih => exact List.mem_append_right _ h
  | case4 left right ih => exact ih h
  | case5 expr inner ih => exact List.mem_append.mpr ((List.mem_append.mp h).imp_right ih)
  | case6 inner name expression ih => exact ih h
  | case7 => cases h

theorem BindsText.injectTables {content subject : Variable} {pattern : GraphPattern}
    (h : BindsText content subject pattern) (tables : List Table) :
    BindsText content subject (injectAll tables pattern) := by
  induction tables generalizing pattern with
  | nil => exact h
  | cons table tables ih => exact ih (h.inject table.1 table.2)

theorem mem_calls_injectAll {call : TextCall} {pattern : GraphPattern}
    (h : call ∈ collectMandatoryTextCalls pattern) (tables : List Table) :
    call ∈ collectMandatoryTextCalls (injectAll tables pattern) := by
  induction tables generalizing pattern with
  | nil => exact h
  | cons table tables ih => exact ih (mem_calls_inject h table.1 table.2)

/-- The tables of a pattern that a table goes down through to a mandatory text are on its rows. -/
theorem BindsText.extends_rows {content subject : Variable} {pattern : GraphPattern}
    (h : BindsText content subject pattern) {tables : List Table} {μ : Solution}
    (hμ : μ ∈ I.eval (injectAll tables pattern)) : OnRows I tables μ := by
  fun_induction BindsText content subject pattern generalizing μ with
  | case1 patterns =>
    have hstops : Stops (.bgp patterns) := fun _ _ => rfl
    rw [hstops.eval_injectAll] at hμ
    exact (mem_joinAll hμ).2
  | case2 left right =>
    have hstops : Stops (.join left right) := fun _ _ => rfl
    rw [hstops.eval_injectAll] at hμ
    exact (mem_joinAll hμ).2
  | case3 left right expression ih =>
    rw [injectAll_through (fun left => .leftJoin left right expression) fun _ _ _ => rfl] at hμ
    obtain ⟨ν, hν, hextends⟩ := eval_leftJoin_extends hμ
    exact (ih h hν).mono hextends
  | case4 left right ih =>
    have hstops : Stops (.lateral left right) := fun _ _ => rfl
    rw [hstops.eval_injectAll] at hμ
    exact (mem_joinAll hμ).2
  | case5 left right ih =>
    rw [injectAll_through (fun left => .minus left right) fun _ _ _ => rfl] at hμ
    exact ih h (eval_minus_mem hμ)
  | case6 expr inner ih =>
    rw [injectAll_through (fun inner => .filter expr inner) fun _ _ _ => rfl] at hμ
    exact ih h (eval_filter_mem.mp hμ).1
  | case7 inner name expression ih =>
    rw [injectAll_through (fun inner => .extend inner name expression) fun _ _ _ => rfl] at hμ
    obtain ⟨ν, hν, hextends⟩ := eval_extend_extends hμ
    exact (ih h hν).mono hextends
  | case8 => exact h.elim

/-- The table of some terms of one variable. -/
def column (subject : Variable) (terms : List Term) : Table :=
  ([subject], terms.map fun term => [some term])

theorem eval_column (subject : Variable) (terms : List Term) :
    I.eval (.values (column subject terms).1 (column subject terms).2) =
      (terms.map (only subject) : List Solution) := by
  rw [Interpretation.eval, column]
  congr 1
  induction terms with
  | nil => rfl
  | cons term terms ih =>
    rw [List.map_cons, List.filterMap_cons_some (rowSolution_single subject term), ih]
    rfl

section
open scoped Classical

variable {content subject : Variable} {terms : List Term}

theorem eval_column_stops {pattern : GraphPattern} (hstops : Stops pattern)
    (h : BindsText content subject pattern) (hnodup : terms.Nodup) (tables : List Table) :
    I.eval (injectAll (column subject terms :: tables) pattern) =
      (I.eval (injectAll tables pattern)).filter (Among subject terms) := by
  have hbound : ∀ μ ∈ I.eval pattern, ∃ a, μ subject = some a := by
    intro μ hμ
    obtain ⟨triple, -, -, hsubject, -⟩ := h.carries hμ
    exact ⟨_, hsubject⟩
  rw [hstops.eval_injectAll, hstops.eval_injectAll, ← joinAll_filter_among hbound,
    ← join_only hnodup hbound, ← eval_column]
  rfl

/-- A table of the subject of a mandatory text leaves the solutions whose subject is in it. -/
theorem BindsText.eval_column {pattern : GraphPattern} (h : BindsText content subject pattern)
    (hnodup : terms.Nodup) (tables : List Table) :
    I.eval (injectAll (column subject terms :: tables) pattern) =
      (I.eval (injectAll tables pattern)).filter (Among subject terms) := by
  have hbound {inner : GraphPattern} (h : BindsText content subject inner) :
      ∀ μ ∈ I.eval (injectAll tables inner), ∃ a, μ subject = some a := by
    intro μ hμ
    obtain ⟨triple, -, -, hsubject, -⟩ := (h.injectTables tables).carries hμ
    exact ⟨_, hsubject⟩
  fun_induction BindsText content subject pattern with
  | case1 patterns =>
    have hbgp : BindsText content subject (.bgp patterns) := h
    exact eval_column_stops (fun _ _ => rfl) hbgp hnodup tables
  | case2 left right =>
    have hjoin : BindsText content subject (.join left right) := h
    exact eval_column_stops (fun _ _ => rfl) hjoin hnodup tables
  | case3 left right expression ih =>
    obtain ⟨holds, heval⟩ := eval_leftJoin I right expression
    rw [injectAll_through (fun left => .leftJoin left right expression) fun _ _ _ => rfl,
      injectAll_through (fun left => .leftJoin left right expression) fun _ _ _ => rfl, heval,
      heval, ih h]
    refine (filter_bind_of_iff _ _ _ fun μ hμ σ hσ => ?_).symm
    obtain ⟨a, ha⟩ := hbound h μ hμ
    exact (mem_optional hσ).among_iff ha
  | case4 left right =>
    have hlateral : BindsText content subject (.lateral left right) := h
    exact eval_column_stops (fun _ _ => rfl) hlateral hnodup tables
  | case5 left right ih =>
    rw [injectAll_through (fun left => .minus left right) fun _ _ _ => rfl,
      injectAll_through (fun left => .minus left right) fun _ _ _ => rfl, Interpretation.eval,
      Interpretation.eval, ih h, minus, minus]
    exact Multiset.filter_comm _ _ _
  | case6 expr inner ih =>
    rw [injectAll_through (fun inner => .filter expr inner) fun _ _ _ => rfl,
      injectAll_through (fun inner => .filter expr inner) fun _ _ _ => rfl, Interpretation.eval,
      Interpretation.eval, ih h]
    exact Multiset.filter_comm _ _ _
  | case7 inner name expression ih =>
    rw [injectAll_through (fun inner => .extend inner name expression) fun _ _ _ => rfl,
      injectAll_through (fun inner => .extend inner name expression) fun _ _ _ => rfl,
      Interpretation.eval, Interpretation.eval, ih h, Multiset.filter_map]
    congr 1
    refine Multiset.filter_congr fun μ hμ => ?_
    obtain ⟨a, ha⟩ := hbound h μ hμ
    exact ((extends_extended name _ μ).among_iff ha).symm
  | case8 => exact h.elim

/-- Tables that hold the subject of every solution leave all of them. -/
theorem eval_columns {pattern : GraphPattern} {tables : List Table}
    {columns : List (Variable × List Term)}
    (h : ∀ narrowed ∈ columns, narrowed.2.Nodup ∧
      (∃ content, BindsText content narrowed.1 pattern) ∧
      ∀ μ ∈ I.eval (injectAll tables pattern), Among narrowed.1 narrowed.2 μ) :
    I.eval (injectAll (columns.map (fun narrowed => column narrowed.1 narrowed.2) ++ tables)
      pattern) = I.eval (injectAll tables pattern) := by
  induction columns generalizing pattern with
  | nil => rfl
  | cons narrowed columns ih =>
    obtain ⟨⟨hnodup, ⟨content, hbinds⟩, hall⟩, hrest⟩ := List.forall_mem_cons.mp h
    have hfirst : I.eval (injectAll (column narrowed.1 narrowed.2 :: tables) pattern) =
        I.eval (injectAll tables pattern) :=
      (hbinds.eval_column hnodup tables).trans (Multiset.filter_eq_self.mpr hall)
    refine (ih fun other hother => ?_).trans hfirst
    obtain ⟨hnodup', ⟨content', hbinds'⟩, hall'⟩ := hrest other hother
    refine ⟨hnodup', ⟨content', hbinds'.inject _ _⟩, fun μ hμ => hall' μ ?_⟩
    rw [← hfirst]
    exact hμ

end

/-! ## Below the modifiers -/

theorem ordering_inject (names : List Variable) (rows : List (List (Option Term)))
    (pattern : GraphPattern) : ordering (injectValues names rows pattern) = ordering pattern := by
  fun_induction injectValues names rows pattern <;> simp_all [ordering]

theorem ordering_injectAll (tables : List Table) (pattern : GraphPattern) :
    ordering (injectAll tables pattern) = ordering pattern := by
  induction tables generalizing pattern with
  | nil => rfl
  | cons table tables ih => exact (ih _).trans (ordering_inject table.1 table.2 pattern)

/-- What leaves the same solutions of the core leaves the same solutions of the query. -/
theorem eval_injectAll_core {tables tables' : List Table} {pattern : GraphPattern}
    (h : I.eval (injectAll tables (queryCorePattern pattern)) =
      I.eval (injectAll tables' (queryCorePattern pattern))) :
    I.eval (injectAll tables pattern) = I.eval (injectAll tables' pattern) := by
  fun_induction queryCorePattern pattern with
  | case1 inner expression ih =>
    rw [injectAll_through (fun inner => .orderBy inner expression) fun _ _ _ => rfl,
      injectAll_through (fun inner => .orderBy inner expression) fun _ _ _ => rfl,
      Interpretation.eval, Interpretation.eval, ih h]
  | case2 inner names ih =>
    rw [injectAll_through (fun inner => .project inner names) fun _ _ _ => rfl,
      injectAll_through (fun inner => .project inner names) fun _ _ _ => rfl,
      Interpretation.eval, Interpretation.eval, ih h]
  | case3 inner ih =>
    rw [injectAll_through .distinct fun _ _ _ => rfl,
      injectAll_through .distinct fun _ _ _ => rfl, Interpretation.eval, Interpretation.eval, ih h]
  | case4 inner ih =>
    rw [injectAll_through .reduced fun _ _ _ => rfl,
      injectAll_through .reduced fun _ _ _ => rfl, Interpretation.eval, Interpretation.eval, ih h]
  | case5 inner start length ih =>
    rw [injectAll_through (fun inner => .slice inner start length) fun _ _ _ => rfl,
      injectAll_through (fun inner => .slice inner start length) fun _ _ _ => rfl,
      Interpretation.eval, Interpretation.eval, ih h, ordering_injectAll, ordering_injectAll]
  | case6 inner names aggregates ih =>
    rw [injectAll_through (fun inner => .group inner names aggregates) fun _ _ _ => rfl,
      injectAll_through (fun inner => .group inner names aggregates) fun _ _ _ => rfl,
      Interpretation.eval, Interpretation.eval, ih h]
  | case7 => exact h

/-! ## The candidates of a call -/

theorem lookup_push {texts : TextSubjects} {pattern : TriplePattern} {content subject : Variable}
    (h : (texts.push pattern).subjects.lookup content = some subject) :
    textPair pattern = some (content, subject) ∨ texts.subjects.lookup content = some subject := by
  unfold TextSubjects.push at h
  split at h
  · exact .inr h
  · next content' subject' hpair =>
    by_cases hcontent : content = content'
    · subst hcontent
      rw [Finmap.lookup_insert] at h
      rw [hpair, Option.some.inj h]
      exact .inl rfl
    · rw [Finmap.lookup_insert_of_ne _ hcontent] at h
      exact .inr h

theorem lookup_pushAll {patterns : List TriplePattern} {texts : TextSubjects}
    {content subject : Variable}
    (h : (patterns.foldl TextSubjects.push texts).subjects.lookup content = some subject) :
    (∃ pattern ∈ patterns, textPair pattern = some (content, subject)) ∨
      texts.subjects.lookup content = some subject := by
  induction patterns generalizing texts with
  | nil => exact .inr h
  | cons pattern patterns ih =>
    rcases ih h with ⟨other, hother, hpair⟩ | h
    · exact .inl ⟨other, List.mem_cons_of_mem _ hother, hpair⟩
    · exact (lookup_push h).imp_left fun hpair => ⟨pattern, List.mem_cons_self, hpair⟩

/-- A subject is collected from a mandatory pattern that asks for its text. -/
theorem bindsText_of_lookup {pattern : GraphPattern} {texts : TextSubjects}
    {content subject : Variable}
    (h : (collectMandatoryTextSubjects pattern texts).subjects.lookup content = some subject) :
    BindsText content subject pattern ∨ texts.subjects.lookup content = some subject := by
  fun_induction collectMandatoryTextSubjects pattern texts with
  | case1 texts patterns => exact lookup_pushAll h
  | case2 texts left right ihl ihr =>
    rcases ihr h with h | h
    · exact .inl (.inr h)
    · exact (ihl h).imp_left .inl
  | case3 texts left right expression ih => exact ih h
  | case4 texts left right ih => exact ih h
  | case5 texts left right ih => exact ih h
  | case6 texts expr inner ih => exact ih h
  | case7 texts inner name expression ih => exact ih h
  | case8 => exact .inr h

section
variable {unicode : Unicode} {lowercase : String → String} {needles : HashMap String String}
  {normalized : NormalizedText}

theorem lookup_normalizedNeedles {calls : List TextCall} {bindings : BTreeMap String RdfTerm}
    {needle text : String}
    (h : (normalizedNeedles unicode calls bindings).lookup needle = some text) :
    text = normalizeText unicode needle := by
  unfold normalizedNeedles at h
  generalize calls.filterMap (fun call => resolveTextNeedle call bindings) = found at h
  have hempty : ∀ text, (∅ : HashMap String String).lookup needle = some text →
      text = normalizeText unicode needle := fun text h => nomatch h
  generalize (∅ : HashMap String String) = needles at h hempty
  induction found generalizing needles with
  | nil => exact hempty text h
  | cons other found ih =>
    refine ih _ h fun text h => ?_
    by_cases hsame : needle = other
    · subst hsame
      rw [Finmap.lookup_insert] at h
      exact (Option.some.inj h).symm
    · rw [Finmap.lookup_insert_of_ne _ hsame] at h
      exact hempty text h

/-- What the matcher accepts has the words of the needle. -/
theorem contains_of_textMatches
    (hneedles : ∀ needle text, needles.lookup needle = some text →
      text = normalizeText unicode needle)
    (hcached : ∀ value text, normalized.lookup value = some text →
      text = normalizeText unicode value) {a b : Term}
    (h : textMatches unicode lowercase needles normalized [a, b] = some true) :
    ∃ content datatype language needle datatype' language', a = .literal content datatype language ∧
      b = .literal needle datatype' language' ∧ (normalizeText unicode needle ≠ "" →
        containsText (normalizeText unicode content) (normalizeText unicode needle) = true) := by
  have hget {texts : HashMap String String} (htexts : ∀ value text,
      texts.lookup value = some text → text = normalizeText unicode value) (value : String) :
      (texts.lookup value).getD (normalizeText unicode value) = normalizeText unicode value := by
    cases hlookup : texts.lookup value with
    | none => rfl
    | some text => exact htexts value text hlookup
  cases a with
  | namedNode iri => cases h
  | literal content datatype language =>
    cases b with
    | namedNode iri => cases h
    | literal needle datatype' language' =>
      refine ⟨content, datatype, language, needle, datatype', language', rfl, rfl, fun hwords => ?_⟩
      unfold textMatches at h
      dsimp only at h
      rw [hget hneedles, hget hcached, if_neg hwords, Option.some.injEq, Bool.and_eq_true] at h
      exact h.1

/-- The texts of the index are those of the stored content and name triples. -/
structure MirrorsTexts (lex : Lexical) (triples : Finset Triple) (live : TextIndex.Texts) :
    Prop where
  iri : ∀ triple ∈ triples, lex.checkIri triple.subject = .ok ()
  stored : ∀ subject value, live.lookup subject = some value →
    ⟨subject, neoContent, .simple value⟩ ∈ triples ∨ ⟨subject, neoName, .simple value⟩ ∈ triples
  indexed : ∀ triple ∈ triples, triple.predicate = neoContent ∨ triple.predicate = neoName →
    ∃ value, triple.object = .simple value ∧ live.lookup triple.subject = some value

/-- An evaluation over the triples that an index mirrors, with the matcher of some calls. -/
structure Executes (unicode : Unicode) (lowercase : String → String) (lex : Lexical)
    (ops : List TextIndex.Op) (calls : List TextCall) (bindings : BTreeMap String RdfTerm)
    (I : Interpretation) : Prop where
  mirrors : MirrorsTexts lex I.triples (TextIndex.Texts.after ops)
  matcher : ∀ terms, I.custom matchesText terms → textMatches unicode lowercase
    (normalizedNeedles unicode calls bindings) (TextIndex.run unicode ops).2 terms = some true

variable {lex : Lexical} {ops : List TextIndex.Op} {calls : List TextCall}
  {bindings : BTreeMap String RdfTerm} {tables : List Table} {core : GraphPattern}

/-- The tables give a variable the literal that it is bound to. -/
def GivesBindings (I : Interpretation) (bindings : BTreeMap String RdfTerm)
    (tables : List Table) : Prop :=
  ∀ name value, bindingLiteral name bindings = some value → ∀ μ, OnRows I tables μ →
    ∃ datatype language, μ name = some (.literal value datatype language)

theorem GivesBindings.resolves (h : GivesBindings I bindings tables) {call : TextCall}
    {needle : String} (hneedle : resolveTextNeedle call bindings = some needle) {μ : Solution}
    (hrows : OnRows I tables μ) {term : Term} (hterm : IsNeedle μ term call.needle) :
    ∃ datatype language, term = .literal needle datatype language := by
  unfold resolveTextNeedle at hneedle
  cases hcall : call.needle with
  | literal value =>
    rw [hcall] at hneedle hterm
    cases hneedle
    exact hterm
  | binding name =>
    rw [hcall] at hneedle hterm
    obtain ⟨datatype, language, hname⟩ := h name needle hneedle μ hrows
    exact ⟨datatype, language, Option.some.inj (hterm.symm.trans hname)⟩

theorem candidates_words {ix : TextIndex} {needle : String} {candidates : List String}
    (h : ix.candidates unicode needle normalized = some candidates) :
    normalizeText unicode needle ≠ "" := by
  intro hempty
  have hshort : (normalizeText unicode needle).length < 3 := by
    rw [hempty]
    decide
  rw [TextIndex.candidates, (TextIndex.candidateIds_eq_none needle).mpr hshort] at h
  cases h

/-- Every solution has a candidate of each mandatory call for the subject of its text. -/
theorem Executes.mem_candidates (h : Executes unicode lowercase lex ops calls bindings I)
    (hgives : GivesBindings I bindings tables) {call : TextCall} {subject : Variable}
    {needle : String} {candidates : List String}
    (hcall : call ∈ collectMandatoryTextCalls core)
    (hbinds : BindsText call.content subject core)
    (hneedle : resolveTextNeedle call bindings = some needle)
    (hcandidates : (TextIndex.run unicode ops).1.candidates unicode needle
      (TextIndex.run unicode ops).2 = some candidates) {μ : Solution}
    (hμ : μ ∈ I.eval (injectAll tables core)) :
    ∃ candidate ∈ candidates, μ subject = some (.namedNode candidate) := by
  have hmirrored : TextIndex.Mirrors unicode _ _ := TextIndex.mirrors_run ops
  have hholds := hmirrored.holds
  obtain ⟨triple, htriple, hknown, hsubject, hcontent⟩ := (hbinds.injectTables tables).carries hμ
  obtain ⟨value, hobject, hlive⟩ := h.mirrors.indexed triple htriple hknown
  obtain ⟨a, b, ha, hb, hcustom⟩ := callHolds_of_mem (mem_calls_injectAll hcall tables) hμ
  obtain ⟨datatype, language, rfl⟩ := hgives.resolves hneedle (hbinds.extends_rows hμ) hb
  have hcached (value text : String) (hlookup : (TextIndex.run unicode ops).2.lookup value =
      some text) : text = normalizeText unicode value := by
    rw [hholds.cached] at hlookup
    obtain ⟨-, -, hlookup⟩ := Option.map_eq_some_iff.mp hlookup
    exact hlookup.symm
  obtain ⟨content, _, _, needle', _, _, rfl, hsame, hcontains⟩ :=
    contains_of_textMatches (fun _ _ => lookup_normalizedNeedles) hcached (h.matcher _ hcustom)
  have hvalue : content = value := by
    have hterm := Option.some.inj (ha.symm.trans (hcontent.trans (congrArg some hobject)))
    exact (Term.literal.inj hterm).1
  obtain ⟨rfl, -, -⟩ := Term.literal.inj hsame
  refine ⟨triple.subject, ((hholds.mem_candidates hcandidates).2 _).mpr ⟨value, hlive, ?_⟩, hsubject⟩
  rw [← hvalue]
  exact hcontains (candidates_words hcandidates)

/-! ## The tables of a query -/

/-- A set of candidates for a subject that every solution has one of. -/
structure Harmless (I : Interpretation) (lex : Lexical) (tables : List Table)
    (core : GraphPattern) (subject : Variable) (candidates : BTreeSet String) : Prop where
  binds : ∃ content, BindsText content subject core
  iri : ∀ candidate ∈ candidates, named lex candidate = .ok candidate
  all : ∀ μ ∈ I.eval (injectAll tables core),
    ∃ candidate ∈ candidates, μ subject = some (.namedNode candidate)

theorem mem_retain {current candidates : BTreeSet String} {candidate : String} :
    candidate ∈ retain current candidates ↔ candidate ∈ current ∧ candidate ∈ candidates := by
  rw [BTreeSet.mem_iff_get, BTreeSet.mem_iff_get, retain, BTreeMap.get_filterMapValues]
  cases BTreeMap.get current candidate with
  | none => simp
  | some _ => simp

theorem Harmless.retain {subject : Variable} {current candidates : BTreeSet String}
    (h : Harmless I lex tables core subject current)
    (h' : Harmless I lex tables core subject candidates) :
    Harmless I lex tables core subject (retain current candidates) where
  binds := h.binds
  iri candidate hcandidate := h.iri candidate (mem_retain.mp hcandidate).1
  all μ hμ := by
    obtain ⟨candidate, hcurrent, hsubject⟩ := h.all μ hμ
    obtain ⟨candidate', hcandidates, hsubject'⟩ := h'.all μ hμ
    obtain rfl := Term.namedNode.inj (Option.some.inj (hsubject.symm.trans hsubject'))
    exact ⟨candidate, mem_retain.mpr ⟨hcurrent, hcandidates⟩, hsubject⟩

theorem callCandidates_eq_some {ix : TextIndex} {texts : TextSubjects} {call : TextCall}
    {subject : Variable} {found : BTreeSet String}
    (h : callCandidates unicode ix normalized texts bindings call = some (subject, found)) :
    ∃ needle candidates, texts.subjects.lookup call.content = some subject ∧
      resolveTextNeedle call bindings = some needle ∧
      ix.candidates unicode needle normalized = some candidates ∧
      found = (∅ : BTreeSet String).extend candidates := by
  unfold callCandidates at h
  obtain ⟨subject', hsubject, h⟩ := Option.bind_eq_some_iff.mp h
  split_ifs at h
  obtain ⟨needle, hneedle, h⟩ := Option.bind_eq_some_iff.mp h
  obtain ⟨candidates, hcandidates, h⟩ := Option.bind_eq_some_iff.mp h
  split_ifs at h
  cases h
  exact ⟨needle, candidates, hsubject, hneedle, hcandidates, rfl⟩

theorem Executes.harmless (h : Executes unicode lowercase lex ops calls bindings I)
    (hgives : GivesBindings I bindings tables) {call : TextCall}
    (hcall : call ∈ collectMandatoryTextCalls core) {subject : Variable} {found : BTreeSet String}
    (hfound : callCandidates unicode (TextIndex.run unicode ops).1 (TextIndex.run unicode ops).2
      (collectMandatoryTextSubjects core ⟨∅, ∅⟩) bindings call = some (subject, found)) :
    Harmless I lex tables core subject found := by
  obtain ⟨needle, candidates, hsubject, hneedle, hcandidates, rfl⟩ := callCandidates_eq_some hfound
  have hbinds : BindsText call.content subject core :=
    (bindsText_of_lookup hsubject).resolve_right nofun
  have hmem {candidate : String} :
      candidate ∈ (∅ : BTreeSet String).extend candidates ↔ candidate ∈ candidates := by
    rw [BTreeSet.mem_extend, or_iff_left (BTreeSet.not_mem_empty candidate)]
  refine ⟨⟨call.content, hbinds⟩, fun candidate hcandidate => ?_, fun μ hμ => ?_⟩
  · have hmirrored : TextIndex.Mirrors unicode _ _ := TextIndex.mirrors_run ops
    have hholds := hmirrored.holds
    obtain ⟨value, hlive, -⟩ := ((hholds.mem_candidates hcandidates).2 _).mp (hmem.mp hcandidate)
    have hvalid : lex.checkIri candidate = .ok () := by
      rcases h.mirrors.stored candidate value hlive with hstored | hstored
      · exact h.mirrors.iri _ hstored
      · exact h.mirrors.iri _ hstored
    rw [named, hvalid]
  · obtain ⟨candidate, hcandidate, hsubject⟩ :=
      h.mem_candidates hgives hcall hbinds hneedle hcandidates hμ
    exact ⟨candidate, hmem.mpr hcandidate, hsubject⟩

/-- The candidates of every subject are harmless. -/
theorem Executes.harmless_all (h : Executes unicode lowercase lex ops calls bindings I)
    (hgives : GivesBindings I bindings tables) :
    ∀ table ∈ (candidatesBySubject unicode (TextIndex.run unicode ops).1
      (TextIndex.run unicode ops).2 (collectMandatoryTextSubjects core ⟨∅, ∅⟩) bindings
      (collectMandatoryTextCalls core)).entries,
      Harmless I lex tables core table.1 table.2 := by
  unfold candidatesBySubject
  generalize hpending : collectMandatoryTextCalls core = pending
  have hall : ∀ call ∈ pending, call ∈ collectMandatoryTextCalls core := by
    rw [hpending]
    exact fun _ hcall => hcall
  clear hpending
  have hempty : ∀ table ∈ (∅ : BTreeMap Variable (BTreeSet String)).entries,
      Harmless I lex tables core table.1 table.2 := nofun
  generalize (∅ : BTreeMap Variable (BTreeSet String)) = bySubject at hempty ⊢
  induction pending generalizing bySubject with
  | nil => exact hempty
  | cons call pending ih =>
    obtain ⟨hcall, hrest⟩ := List.forall_mem_cons.mp hall
    refine ih hrest _ ?_
    dsimp only
    cases hfound : callCandidates unicode (TextIndex.run unicode ops).1
        (TextIndex.run unicode ops).2 (collectMandatoryTextSubjects core ⟨∅, ∅⟩) bindings call with
    | none => exact hempty
    | some found =>
      obtain ⟨subject, found⟩ := found
      have hharmless := h.harmless hgives hcall hfound
      have hinsert (candidates : BTreeSet String)
          (hcandidates : Harmless I lex tables core subject candidates) :
          ∀ table ∈ (bySubject.insert subject candidates).entries,
            Harmless I lex tables core table.1 table.2 := by
        intro table htable
        rcases BTreeMap.mem_insertEntry htable with rfl | htable
        · exact hcandidates
        · exact hempty table htable
      dsimp only
      cases hcurrent : bySubject.get subject with
      | none => exact hinsert found hharmless
      | some current =>
        refine hinsert _ (Harmless.retain ?_ hharmless)
        exact hempty (subject, current) (BTreeMap.mem_entries.mpr hcurrent)

theorem candidateRows_ok {candidates : BTreeSet String}
    (h : ∀ candidate ∈ candidates, named lex candidate = .ok candidate) :
    candidateRows lex candidates =
      .ok ((candidates.toList.map Term.namedNode).map fun term => [some term]) := by
  have hall : ∀ candidate ∈ candidates.toList, named lex candidate = .ok candidate := h
  unfold candidateRows
  generalize candidates.toList = listed at hall ⊢
  induction listed with
  | nil => rfl
  | cons candidate rest ih =>
    obtain ⟨hfirst, hrest⟩ := List.forall_mem_cons.mp hall
    rw [List.mapM_cons, hfirst, ih hrest]
    rfl

theorem injectTables_ok {columns : List (Variable × BTreeSet String)}
    (h : ∀ table ∈ columns, ∀ candidate ∈ table.2, named lex candidate = .ok candidate)
    (pattern : GraphPattern) :
    injectTables lex pattern columns = .ok (injectAll (columns.map fun table =>
      column table.1 (table.2.toList.map Term.namedNode)) pattern) := by
  unfold injectTables
  induction columns generalizing pattern with
  | nil => rfl
  | cons table columns ih =>
    obtain ⟨hfirst, hrest⟩ := List.forall_mem_cons.mp h
    rw [List.foldlM_cons, candidateRows_ok hfirst]
    exact ih hrest _

theorem nodup_namedNodes (candidates : BTreeSet String) :
    (candidates.toList.map Term.namedNode).Nodup :=
  (BTreeMap.nodup_keys candidates).map fun _ _ h => Term.namedNode.inj h

/-- The text tables go in, and with the tables of the bindings below them nothing is lost. -/
theorem Executes.injectCandidates (h : Executes unicode lowercase lex ops calls bindings I)
    (hgives : GivesBindings I bindings tables) (pattern : GraphPattern) :
    ∃ injected, injectCandidates unicode (TextIndex.run unicode ops).1
        (TextIndex.run unicode ops).2 lex bindings pattern = .ok injected ∧
      ordering injected = ordering pattern ∧
      I.eval (injectAll tables injected) = I.eval (injectAll tables pattern) := by
  have hharmless := @Executes.harmless_all I unicode lowercase lex ops calls bindings tables
    (queryCorePattern pattern) h hgives
  unfold Query.injectCandidates
  dsimp only
  generalize (candidatesBySubject unicode (TextIndex.run unicode ops).1
    (TextIndex.run unicode ops).2 (collectMandatoryTextSubjects (queryCorePattern pattern) ⟨∅, ∅⟩)
    bindings (collectMandatoryTextCalls (queryCorePattern pattern))).entries = columns at hharmless ⊢
  refine ⟨_, injectTables_ok (fun table htable => (hharmless table htable).iri) pattern,
    ordering_injectAll _ pattern, ?_⟩
  have hcore : I.eval (injectAll ((columns.map fun table =>
      column table.1 (table.2.toList.map Term.namedNode)) ++ tables) (queryCorePattern pattern)) =
      I.eval (injectAll tables (queryCorePattern pattern)) := by
    have hcolumns : ∀ narrowed ∈ columns.map fun table =>
        (table.1, table.2.toList.map Term.namedNode), narrowed.2.Nodup ∧
        (∃ content, BindsText content narrowed.1 (queryCorePattern pattern)) ∧
        ∀ μ ∈ I.eval (injectAll tables (queryCorePattern pattern)),
          Among narrowed.1 narrowed.2 μ := by
      intro narrowed hnarrowed
      obtain ⟨table, htable, rfl⟩ := List.mem_map.mp hnarrowed
      have hone := hharmless table htable
      refine ⟨nodup_namedNodes table.2, hone.binds, fun μ hμ => ?_⟩
      obtain ⟨candidate, hcandidate, hsubject⟩ := hone.all μ hμ
      exact ⟨.namedNode candidate, List.mem_map_of_mem hcandidate, hsubject⟩
    have hsame := eval_columns hcolumns
    rw [List.map_map] at hsame
    exact hsame
  have hall := eval_injectAll_core hcore
  unfold injectAll at hall ⊢
  rw [List.foldl_append] at hall
  exact hall

/-! ## Bindings and text candidates -/

theorem rowSolution_cons {name : Variable} {term : Term} {names : List Variable}
    {row : List (Option Term)} {ρ : Solution}
    (h : rowSolution (name :: names) (some term :: row) = some ρ) :
    ρ name = some term ∧ ∃ rest, rowSolution names row = some rest ∧ Extends ρ rest := by
  unfold rowSolution at h
  obtain ⟨rest, hrest, h⟩ := Option.bind_eq_some_iff.mp h
  dsimp only at h
  split_ifs at h with hcompatible
  cases h
  exact ⟨extends_merge_left _ rest _ _ (if_pos rfl), rest, hrest,
    hcompatible.extends_merge_right⟩

theorem toGroundTerm_literal {terms : TermSyntax} {value datatype : String}
    {language : Option String} {term : Term}
    (h : toGroundTerm terms (.literal value datatype language) = .ok term) :
    ∃ datatype language, term = .literal value datatype language := by
  cases language with
  | none =>
    unfold toGroundTerm named at h
    dsimp only at h
    cases hiri : terms.checkIri datatype with
    | error e =>
      rw [hiri] at h
      cases h
    | ok _ =>
      rw [hiri] at h
      cases h
      exact ⟨_, _, rfl⟩
  | some language =>
    unfold toGroundTerm at h
    dsimp only at h
    split at h
    · cases h
      exact ⟨_, _, rfl⟩
    · cases h

/-- The row of the bindings has each literal under its variable. -/
theorem bindingRow_literal {terms : TermSyntax} {entries : List (String × RdfTerm)}
    {columns : List Variable} {row : List (Option Term)} {ρ : Solution}
    (hrow : bindingRow terms entries = .ok (columns, row)) (hρ : rowSolution columns row = some ρ)
    {name value datatype : String} {language : Option String}
    (hmem : (name, RdfTerm.literal value datatype language) ∈ entries) :
    ∃ datatype language, ρ (trimSigil name) = some (.literal value datatype language) := by
  induction entries generalizing columns row ρ with
  | nil => cases hmem
  | cons entry entries ih =>
    obtain ⟨first, given⟩ := entry
    unfold bindingRow at hrow
    obtain ⟨column, hcolumn, hrow⟩ := bind_eq_ok.mp hrow
    obtain ⟨term, hterm, hrow⟩ := bind_eq_ok.mp hrow
    obtain ⟨⟨columns', row'⟩, hrest, hrow⟩ := bind_eq_ok.mp hrow
    cases hrow
    obtain ⟨hhead, ρ', hρ', hextends⟩ := rowSolution_cons hρ
    rcases List.mem_cons.mp hmem with heq | hmem
    · cases heq
      obtain ⟨datatype, language, rfl⟩ := toGroundTerm_literal hterm
      unfold bindingVariable at hcolumn
      split at hcolumn
      · cases hcolumn
        exact ⟨datatype, language, hhead⟩
      · cases hcolumn
    · obtain ⟨datatype, language, hname⟩ := ih hrest hρ' hmem
      exact ⟨datatype, language, hextends _ _ hname⟩

theorem givesBindings_row {terms : TermSyntax} {columns : List Variable}
    {row : List (Option Term)} (hrow : bindingRow terms bindings.entries = .ok (columns, row)) :
    GivesBindings I bindings [(columns, [row])] := by
  intro name value hliteral μ hrows
  obtain ⟨ρ, hρ, hextends⟩ := hrows _ (List.mem_singleton_self _)
  cases hsolution : rowSolution columns row with
  | none =>
    rw [eval_values_none hsolution] at hρ
    exact absurd hρ (Multiset.notMem_zero ρ)
  | some ρ' =>
    rw [eval_values_some hsolution] at hρ
    obtain rfl := Multiset.mem_singleton.mp hρ
    obtain ⟨⟨given, term⟩, hmem, hfound⟩ := List.exists_of_findSome?_eq_some hliteral
    split_ifs at hfound with hname
    rw [not_not] at hname
    cases term with
    | iri value => cases hfound
    | literal value' datatype language =>
      cases hfound
      obtain ⟨datatype, language, hbound⟩ := bindingRow_literal hrow hsolution hmem
      exact ⟨datatype, language, hextends _ _ (hname ▸ hbound)⟩

theorem givesBindings_nil (h : bindings.entries = []) : GivesBindings I bindings [] := by
  intro name value hliteral
  unfold bindingLiteral at hliteral
  rw [h] at hliteral
  cases hliteral

end

/-- What a query answers: its solutions and what they are ordered by, or that there are some. -/
inductive Answer where
  | solutions (rows : Multiset Solution) (order : List OrderExpression)
  | boolean (rows : Multiset Solution)

noncomputable def answer (I : Interpretation) : Sparql.Query → Option Answer
  | .select _ pattern => some (.solutions (I.eval pattern) (ordering pattern))
  | .ask _ pattern => some (.boolean (I.eval pattern))
  | .construct _ _ _ | .describe _ _ => none

/-- Patterns with the same solutions under every table of the bindings give queries with the
same answer to the bindings. -/
theorem map_answer_bindings {terms : TermSyntax} {bindings : BTreeMap String RdfTerm}
    {injected pattern : GraphPattern} (hordering : ordering injected = ordering pattern)
    (heval : ∀ tables, GivesBindings I bindings tables →
      I.eval (injectAll tables injected) = I.eval (injectAll tables pattern))
    {form : GraphPattern → Sparql.Query}
    (hform : (∃ dataset, form = .select dataset) ∨ ∃ dataset, form = .ask dataset) :
    (injectQueryBindings terms (form injected) bindings).map (answer I) =
      (injectQueryBindings terms (form pattern) bindings).map (answer I) := by
  have hanswer {a b : GraphPattern} (horder : ordering a = ordering b)
      (hrows : I.eval a = I.eval b) : answer I (form a) = answer I (form b) := by
    rcases hform with ⟨dataset, rfl⟩ | ⟨dataset, rfl⟩
    · rw [answer, answer, horder, hrows]
    · rw [answer, answer, hrows]
  unfold injectQueryBindings
  by_cases hempty : bindings.entries.isEmpty = true
  · rw [if_pos hempty, if_pos hempty]
    have hsame := heval [] (givesBindings_nil (List.isEmpty_iff.mp hempty))
    exact congrArg Except.ok (hanswer hordering hsame)
  · rw [if_neg hempty, if_neg hempty]
    cases hrow : bindingRow terms bindings.entries with
    | error e => rfl
    | ok found =>
      obtain ⟨columns, row⟩ := found
      have hsame := hanswer
        (by rw [ordering_injectAll, ordering_injectAll, hordering])
        (heval [(columns, [row])] (givesBindings_row hrow))
      rcases hform with ⟨dataset, rfl⟩ | ⟨dataset, rfl⟩
      · exact congrArg Except.ok hsame
      · exact congrArg Except.ok hsame

/-- Over the texts of any run of the index, the tables of text candidates change neither whether
the bindings can be joined to a query nor what the query then answers. -/
theorem injectTextCandidates_invisible (unicode : Unicode) (lowercase : String → String)
    (terms : TermSyntax) (ops : List TextIndex.Op) (I : Interpretation) (query : Sparql.Query)
    (bindings : BTreeMap String RdfTerm) (calls : List TextCall)
    (hmirrors : MirrorsTexts terms.toLexical I.triples (TextIndex.Texts.after ops)) :
    ∃ injected, injectTextCandidates unicode (TextIndex.run unicode ops).1
        (TextIndex.run unicode ops).2 terms.toLexical query bindings = .ok injected ∧
      (injectQueryBindings terms injected bindings).map (answer (withMatcher unicode lowercase I
          (normalizedNeedles unicode calls bindings) (TextIndex.run unicode ops).2)) =
        (injectQueryBindings terms query bindings).map (answer (withMatcher unicode lowercase I
          (normalizedNeedles unicode calls bindings) (TextIndex.run unicode ops).2)) := by
  generalize hJ : withMatcher unicode lowercase I (normalizedNeedles unicode calls bindings)
    (TextIndex.run unicode ops).2 = J
  have hexec : Executes unicode lowercase terms.toLexical ops calls bindings J := by
    subst hJ
    refine ⟨hmirrors, fun terms hcustom => ?_⟩
    unfold withMatcher at hcustom
    dsimp only at hcustom
    rwa [if_pos rfl] at hcustom
  have hpattern (pattern : GraphPattern) : ∃ injected,
      injectCandidates unicode (TextIndex.run unicode ops).1 (TextIndex.run unicode ops).2
        terms.toLexical bindings pattern = .ok injected ∧
      ordering injected = ordering pattern ∧
      ∀ tables, GivesBindings J bindings tables →
        J.eval (injectAll tables injected) = J.eval (injectAll tables pattern) := by
    -- a table without rows gives the bindings, so the text tables go in whatever these are
    have hnone : GivesBindings J bindings [([], [])] := by
      intro name value _ μ hrows
      obtain ⟨ρ, hρ, -⟩ := hrows _ (List.mem_singleton_self _)
      rw [Interpretation.eval] at hρ
      exact absurd hρ (Multiset.notMem_zero ρ)
    obtain ⟨injected, hinjected, hordering, -⟩ := hexec.injectCandidates hnone pattern
    refine ⟨injected, hinjected, hordering, fun tables hgives => ?_⟩
    obtain ⟨injected', hinjected', -, heval⟩ := hexec.injectCandidates hgives pattern
    obtain rfl := Except.ok.inj (hinjected.symm.trans hinjected')
    exact heval
  cases query with
  | select dataset pattern =>
    obtain ⟨injected, hinjected, hordering, heval⟩ := hpattern pattern
    refine ⟨.select dataset injected, ?_, map_answer_bindings hordering heval (.inl ⟨dataset, rfl⟩)⟩
    rw [injectTextCandidates, hinjected]
    rfl
  | ask dataset pattern =>
    obtain ⟨injected, hinjected, hordering, heval⟩ := hpattern pattern
    refine ⟨.ask dataset injected, ?_, map_answer_bindings hordering heval (.inr ⟨dataset, rfl⟩)⟩
    rw [injectTextCandidates, hinjected]
    rfl
  | construct template dataset pattern => exact ⟨_, rfl, rfl⟩
  | describe dataset pattern => exact ⟨_, rfl, rfl⟩

/-! ## A query for a text -/

def wordUnicode : Unicode where
  toLowercase c := [c.toLower]
  isAlphanumeric := Char.isAlphanum
  isWhitespace := Char.isWhitespace

def wordTerms : TermSyntax where
  checkIri _ := .ok ()
  display _ := ""
  checkVariable _ := .ok ()
  languageTag tag := .ok tag

/-- The blocks with the word in their text. -/
def wordQuery : Sparql.Query :=
  .select none (.project (.filter
    (.functionCall (.custom matchesText) [.var "c", .literal (.simple "word")])
    (.bgp [⟨.var "s", .namedNode neoContent, .var "c"⟩])) ["s"])

def wordOps : List TextIndex.Op :=
  [.insert "urn:a" "A word", .insert "urn:b" "Two", .insert "urn:c" "Three", .insert "urn:d" "Four"]

def wordTexts : Finset Triple :=
  {⟨"urn:a", neoContent, .simple "A word"⟩, ⟨"urn:b", neoName, .simple "Two"⟩,
    ⟨"urn:c", neoContent, .simple "Three"⟩, ⟨"urn:d", neoContent, .simple "Four"⟩}

theorem mirrorsTexts_word :
    MirrorsTexts wordTerms.toLexical wordTexts (TextIndex.Texts.after wordOps) := by
  have hafter : TextIndex.Texts.after wordOps =
      ((((∅ : TextIndex.Texts).insert "urn:a" "A word").insert "urn:b" "Two").insert
        "urn:c" "Three").insert "urn:d" "Four" := by decide
  refine ⟨fun _ _ => rfl, fun subject value h => ?_, fun triple htriple _ => ?_⟩
  · rw [hafter] at h
    by_cases hd : subject = "urn:d"
    · subst hd
      rw [Finmap.lookup_insert] at h
      cases h
      decide
    rw [Finmap.lookup_insert_of_ne _ hd] at h
    by_cases hc : subject = "urn:c"
    · subst hc
      rw [Finmap.lookup_insert] at h
      cases h
      decide
    rw [Finmap.lookup_insert_of_ne _ hc] at h
    by_cases hb : subject = "urn:b"
    · subst hb
      rw [Finmap.lookup_insert] at h
      cases h
      decide
    rw [Finmap.lookup_insert_of_ne _ hb] at h
    by_cases ha : subject = "urn:a"
    · subst ha
      rw [Finmap.lookup_insert] at h
      cases h
      decide
    rw [Finmap.lookup_insert_of_ne _ ha] at h
    cases h
  · simp only [wordTexts, Finset.mem_insert, Finset.mem_singleton] at htriple
    rcases htriple with rfl | rfl | rfl | rfl
    · exact ⟨"A word", rfl, by decide⟩
    · exact ⟨"Two", rfl, by decide⟩
    · exact ⟨"Three", rfl, by decide⟩
    · exact ⟨"Four", rfl, by decide⟩

theorem injectTextCandidates_word : ∃ injected,
    injectTextCandidates wordUnicode (TextIndex.run wordUnicode wordOps).1
      (TextIndex.run wordUnicode wordOps).2 wordTerms.toLexical wordQuery ∅ =
        .ok injected ∧
      (injectQueryBindings wordTerms injected ∅).map (answer (withMatcher wordUnicode id
        (plainInterpretation wordTexts) (normalizedNeedles wordUnicode [] ∅)
        (TextIndex.run wordUnicode wordOps).2)) =
      (injectQueryBindings wordTerms wordQuery ∅).map (answer (withMatcher wordUnicode id
        (plainInterpretation wordTexts) (normalizedNeedles wordUnicode [] ∅)
        (TextIndex.run wordUnicode wordOps).2)) :=
  injectTextCandidates_invisible wordUnicode id wordTerms wordOps
    (plainInterpretation wordTexts) wordQuery ∅ [] mirrorsTexts_word

end Neoseq.Query
