import Neoseq.Query.EntityIdentity
import Neoseq.Query.TextIndex

/-! The sandbox of a query: it is decided on the algebra, before the aliases of
entities in it are resolved and before anything is evaluated. -/

namespace Neoseq.Query
open Collections Sparql

def matchesText : String := neoNs ++ "matchesText"

inductive TextNeedle where
  | literal (value : String)
  | binding (name : Variable)
  deriving Repr, DecidableEq

structure TextCall where
  content : Variable
  needle : TextNeedle
  deriving Repr, DecidableEq

/-! ## Text patterns -/

def isTextPattern (name : Variable) (pattern : TriplePattern) : Bool :=
  match pattern.predicate, pattern.object with
  | .namedNode predicate, .var object =>
    (predicate == neoContent || predicate == neoName) && object == name
  | _, _ => false

mutual

def patternHasTextObject (name : Variable) : GraphPattern → Bool
  | .bgp patterns => patterns.any (isTextPattern name)
  | .path _ _ _ | .values _ _ => false
  | .join left right | .lateral left right | .union left right | .minus left right =>
    patternHasTextObject name left || patternHasTextObject name right
  | .leftJoin left right none =>
    patternHasTextObject name left || patternHasTextObject name right
  | .leftJoin left right (some expression) =>
    patternHasTextObject name left || patternHasTextObject name right ||
      expressionHasTextObject name expression
  | .filter expr inner => patternHasTextObject name inner || expressionHasTextObject name expr
  | .extend inner _ expression =>
    patternHasTextObject name inner || expressionHasTextObject name expression
  | .orderBy inner orders => patternHasTextObject name inner || ordersHaveTextObject name orders
  | .group inner _ aggregates =>
    patternHasTextObject name inner || aggregatesHaveTextObject name aggregates
  | .graph _ inner | .service _ inner _ | .project inner _ | .distinct inner | .reduced inner
  | .slice inner _ _ => patternHasTextObject name inner

def expressionHasTextObject (name : Variable) : Expression → Bool
  | .exists pattern => patternHasTextObject name pattern
  | .binary _ left right =>
    expressionHasTextObject name left || expressionHasTextObject name right
  | .unary _ inner => expressionHasTextObject name inner
  | .ite condition left right =>
    expressionHasTextObject name condition || expressionHasTextObject name left ||
      expressionHasTextObject name right
  | .isIn left right =>
    expressionHasTextObject name left || expressionsHaveTextObject name right
  | .coalesce expressions | .functionCall _ expressions =>
    expressionsHaveTextObject name expressions
  | .namedNode _ | .literal _ | .var _ | .bound _ => false

def expressionsHaveTextObject (name : Variable) : List Expression → Bool
  | [] => false
  | expression :: rest =>
    expressionHasTextObject name expression || expressionsHaveTextObject name rest

def ordersHaveTextObject (name : Variable) : List OrderExpression → Bool
  | [] => false
  | .asc expression :: rest | .desc expression :: rest =>
    expressionHasTextObject name expression || ordersHaveTextObject name rest

def aggregatesHaveTextObject (name : Variable) :
    List (Variable × AggregateExpression) → Bool
  | [] => false
  | (_, .countSolutions _) :: rest => aggregatesHaveTextObject name rest
  | (_, .functionCall _ expr _) :: rest =>
    expressionHasTextObject name expr || aggregatesHaveTextObject name rest

end

/-! ## Validation -/

/-- What validation carries along: the text calls and what is left of the budget. -/
structure Validation where
  calls : List TextCall
  remaining : Nat

abbrev Validate := StateT Validation (Except QueryError)

def spendOperators (count : Nat) : Validate Unit := fun s =>
  if count ≤ s.remaining then .ok ((), { s with remaining := s.remaining - count })
  else .error .algebraBudget

def spendOperator : Validate Unit := spendOperators 1

def pushCall (call : TextCall) : Validate Unit := fun s =>
  .ok ((), { s with calls := s.calls ++ [call] })

def disallowed (form : String) : Validate Unit := fun _ => .error (.disallowed form)

def validatePropertyPath : PropertyPathExpression → Validate Unit
  | .namedNode _ => pure ()
  | .reverse inner | .zeroOrMore inner | .oneOrMore inner | .zeroOrOne inner => do
    spendOperator
    validatePropertyPath inner
  | .sequence left right | .alternative left right => do
    spendOperator
    validatePropertyPath left
    validatePropertyPath right
  | .negatedPropertySet _ => spendOperator

/-- `str::trim_start_matches` of the two signs of a variable. -/
def trimSigil (name : String) : String :=
  String.ofList (name.toList.dropWhile fun c => c == '?' || c == '$')

def bindingLiteral (name : Variable) (bindings : BTreeMap String RdfTerm) : Option String :=
  bindings.entries.findSome? fun e =>
    if trimSigil e.1 ≠ name then none
    else match e.2 with
      | .literal value _ _ => some value
      | .iri _ => none

def validateTextCall (bindings : BTreeMap String RdfTerm) : List Expression → Validate Unit
  | [.var content, .literal (.literal value _ _)] => pushCall ⟨content, .literal value⟩
  | [.var content, .var name] =>
    if (bindingLiteral name bindings).isSome then pushCall ⟨content, .binding name⟩
    else disallowed "neo:matchesText needle must be a literal or bound literal parameter"
  | [.var _, _] =>
    disallowed "neo:matchesText needle must be a literal or bound literal parameter"
  | _ =>
    disallowed "neo:matchesText requires a content variable and a literal or bound needle"

/-- Compound expressions take from the budget, names and constants do not. -/
def isCompound : Expression → Bool
  | .namedNode _ | .literal _ | .var _ => false
  | _ => true

section

variable (bindings : BTreeMap String RdfTerm)

mutual

def validatePattern : GraphPattern → Validate Unit
  | .bgp patterns => do
    spendOperator
    spendOperators patterns.length
  | .path _ path _ => do
    spendOperator
    validatePropertyPath path
  | .values _ _ => spendOperator
  | .join left right | .lateral left right | .union left right | .minus left right => do
    spendOperator
    validatePattern left
    validatePattern right
  | .leftJoin left right none => do
    spendOperator
    validatePattern left
    validatePattern right
  | .leftJoin left right (some expression) => do
    spendOperator
    validatePattern left
    validatePattern right
    validateExpression expression
  | .filter expr inner => do
    spendOperator
    validatePattern inner
    validateExpression expr
  | .graph _ _ => do
    spendOperator
    disallowed "GRAPH"
  | .service _ _ _ => do
    spendOperator
    disallowed "SERVICE"
  | .project inner _ | .distinct inner | .reduced inner | .slice inner _ _ => do
    spendOperator
    validatePattern inner
  | .extend inner _ expression => do
    spendOperator
    validatePattern inner
    validateExpression expression
  | .orderBy inner orders => do
    spendOperator
    validatePattern inner
    validateOrders orders
  | .group inner _ aggregates => do
    spendOperator
    validatePattern inner
    validateAggregates aggregates

def validateExpression (expression : Expression) : Validate Unit := do
  if isCompound expression then spendOperator
  match expression with
  | .functionCall (.custom function) arguments =>
    if function = matchesText then validateTextCall bindings arguments
    else validateExpressions arguments
  | .exists pattern => validatePattern pattern
  | .binary _ left right => do
    validateExpression left
    validateExpression right
  | .unary _ inner => validateExpression inner
  | .ite condition left right => do
    validateExpression condition
    validateExpression left
    validateExpression right
  | .isIn left right => do
    validateExpression left
    validateExpressions right
  | .coalesce expressions | .functionCall _ expressions => validateExpressions expressions
  | .namedNode _ | .literal _ | .var _ | .bound _ => pure ()

def validateExpressions : List Expression → Validate Unit
  | [] => pure ()
  | expression :: rest => do
    validateExpression expression
    validateExpressions rest

def validateOrders : List OrderExpression → Validate Unit
  | [] => pure ()
  | .asc expression :: rest | .desc expression :: rest => do
    spendOperator
    validateExpression expression
    validateOrders rest

def validateAggregates : List (Variable × AggregateExpression) → Validate Unit
  | [] => pure ()
  | (_, .countSolutions _) :: rest => do
    spendOperator
    validateAggregates rest
  | (_, .functionCall _ expr _) :: rest => do
    spendOperator
    validateExpression expr
    validateAggregates rest

end

def validateQuery (query : Sparql.Query) (maxOperators : Nat) : Except QueryError (List TextCall) :=
  match query with
  | .construct _ _ _ => .error (.disallowed "CONSTRUCT")
  | .describe _ _ => .error (.disallowed "DESCRIBE")
  | .select dataset pattern | .ask dataset pattern => do
    if dataset.isSome then throw (.disallowed "FROM/FROM NAMED")
    let (_, s) ← (validatePattern bindings pattern).run ⟨[], maxOperators⟩
    if s.calls.any fun call => !patternHasTextObject call.content pattern then
      throw (.disallowed
        "neo:matchesText first argument must be the object of neo:content or neo:name")
    return s.calls

end

/-! ## What validation establishes -/

/-- The nodes that take from the budget. -/
def isOperator : Node → Bool
  | .pattern _ => true
  | .path (.namedNode _) => false
  | .path _ => true
  | .expression e => isCompound e

/-- A node is free of external forms, and its operators were taken from the budget. -/
def Sandboxed (n : Node) (count : Nat) : Prop :=
  (∀ m ∈ Node.tree.nodes n, EntityIdentity.isExternal m = false) ∧
    Node.tree.count isOperator n ≤ count

/-- If `x` succeeds, it has taken at least `count` operators and `P` holds. -/
def Checks (x : Validate Unit) (P : Nat → Prop) : Prop :=
  ∀ s s', x.run s = .ok ((), s') → ∃ count, P count ∧ s'.remaining + count ≤ s.remaining

namespace Checks

variable {x y : Validate Unit} {P Q R : Nat → Prop}

theorem spend (n : Nat) : Checks (spendOperators n) (fun count => count = n) := by
  intro s s' h
  refine ⟨n, rfl, ?_⟩
  simp only [StateT.run, spendOperators] at h
  split at h
  · cases h
    simp only
    omega
  · cases h

theorem pure' : Checks (pure ()) (fun count => count = 0) := by
  intro s s' h
  cases h
  exact ⟨0, rfl, Nat.le_refl _⟩

theorem push (call : TextCall) : Checks (pushCall call) (fun count => count = 0) := by
  intro s s' h
  cases h
  exact ⟨0, rfl, Nat.le_refl _⟩

theorem fail (form : String) : Checks (disallowed form) P := fun _ _ h => nomatch h

theorem mono (h : Checks x P) (hpq : ∀ n, P n → Q n) : Checks x Q := by
  intro s s' hr
  obtain ⟨n, hp, hn⟩ := h s s' hr
  exact ⟨n, hpq n hp, hn⟩

/-- Two checks one after the other take the sum of what they take. -/
theorem andThen (hx : Checks x P) (hy : Checks y Q) (h : ∀ m n, P m → Q n → R (m + n)) :
    Checks (x >>= fun _ => y) R := by
  intro s s' hr
  obtain ⟨⟨_, t⟩, hxr, hyr⟩ := bind_eq_ok.mp hr
  obtain ⟨m, hp, hm⟩ := hx s t hxr
  obtain ⟨n, hq, hn⟩ := hy t s' hyr
  exact ⟨m + n, h m n hp hq, by omega⟩

end Checks

/-- Every node of a list is sandboxed, for `count` operators together. -/
def AllSandboxed (ns : List Node) (count : Nat) : Prop :=
  (∀ n ∈ ns, ∀ m ∈ Node.tree.nodes n, EntityIdentity.isExternal m = false) ∧
    (ns.map (Node.tree.count isOperator)).sum ≤ count

theorem allSandboxed_nil (count : Nat) : AllSandboxed [] count :=
  ⟨fun _ h => (nomatch h), Nat.zero_le _⟩

theorem AllSandboxed.cons {n : Node} {ns : List Node} {a b : Nat} (hn : Sandboxed n a)
    (hns : AllSandboxed ns b) : AllSandboxed (n :: ns) (a + b) := by
  refine ⟨List.forall_mem_cons.mpr ⟨hn.1, hns.1⟩, ?_⟩
  rw [List.map_cons, List.sum_cons]
  exact Nat.add_le_add hn.2 hns.2

/-- A node is sandboxed when it is no external form, and its parts are with the
operator itself taken off. -/
theorem Sandboxed.ofChildren {n : Node} {count : Nat} (hn : EntityIdentity.isExternal n = false)
    (h : AllSandboxed (Node.children n) count) :
    Sandboxed n ((if isOperator n then 1 else 0) + count) := by
  refine ⟨Node.tree.forall_nodes.mpr ⟨hn, h.1⟩, ?_⟩
  rw [Node.tree.count_eq]
  exact Nat.add_le_add_left h.2 _

theorem AllSandboxed.mono {ns : List Node} {a b : Nat} (h : AllSandboxed ns a) (hab : a ≤ b) :
    AllSandboxed ns b := ⟨h.1, h.2.trans hab⟩

/-- What is shown of a node of any sort by the traversal of its sort. -/
def Validates (bindings : BTreeMap String RdfTerm) : Node → Prop
  | .pattern p => Checks (validatePattern bindings p) (Sandboxed (.pattern p))
  | .expression e => Checks (validateExpression bindings e) (Sandboxed (.expression e))
  | .path p => Checks (validatePropertyPath p) (Sandboxed (.path p))

theorem Checks.one {x : Validate Unit} {n : Node} (h : Checks x (Sandboxed n)) :
    Checks x (AllSandboxed [n]) :=
  h.mono fun _ hn => AllSandboxed.cons hn (allSandboxed_nil 0)

theorem Checks.cons {x y : Validate Unit} {n : Node} {ns : List Node}
    (hx : Checks x (Sandboxed n)) (hy : Checks y (AllSandboxed ns)) :
    Checks (x >>= fun _ => y) (AllSandboxed (n :: ns)) :=
  hx.andThen hy fun _ _ => AllSandboxed.cons

/-- One operator more than the parts take. -/
theorem Checks.spending {y : Validate Unit} {ns : List Node} (hy : Checks y (AllSandboxed ns)) :
    Checks (spendOperator >>= fun _ => y) (AllSandboxed ns) :=
  (Checks.spend 1).andThen hy fun _ _ _ hn => hn.mono (Nat.le_add_left ..)

theorem Checks.operator {y : Validate Unit} {n : Node}
    (hn : EntityIdentity.isExternal n = false) (ho : isOperator n = true)
    (hy : Checks y (AllSandboxed (Node.children n))) :
    Checks (spendOperator >>= fun _ => y) (Sandboxed n) := by
  refine (Checks.spend 1).andThen hy ?_
  rintro _ count rfl hc
  have hs := Sandboxed.ofChildren hn hc
  rw [if_pos ho] at hs
  exact hs

theorem Checks.operatorLeaf {n : Node} (hn : EntityIdentity.isExternal n = false)
    (ho : isOperator n = true) (hc : Node.children n = []) :
    Checks spendOperator (Sandboxed n) := by
  refine (Checks.spend 1).mono ?_
  rintro _ rfl
  have hs := Sandboxed.ofChildren hn (hc ▸ allSandboxed_nil 0)
  rw [if_pos ho] at hs
  exact hs

/-- Names, variables and constants take nothing. -/
theorem sandboxed_atom {n : Node} (hn : EntityIdentity.isExternal n = false)
    (ho : isOperator n = false) (hc : Node.children n = []) (count : Nat) :
    Sandboxed n count := by
  have hs := Sandboxed.ofChildren hn (hc ▸ allSandboxed_nil count)
  rw [if_neg (by simp [ho]), Nat.zero_add] at hs
  exact hs

theorem Checks.leaf {x : Validate Unit} {P : Nat → Prop} (h : Checks x P) :
    Checks x (AllSandboxed []) := h.mono fun n _ => allSandboxed_nil n

variable {bindings : BTreeMap String RdfTerm}

theorem checks_expressions {es : List Expression}
    (h : ∀ n ∈ es.map Node.expression, Validates bindings n) :
    Checks (validateExpressions bindings es) (AllSandboxed (es.map Node.expression)) := by
  induction es with
  | nil => exact Checks.pure'.leaf
  | cons e es ih =>
    have hes := ih fun n hn => h n (List.mem_cons_of_mem _ hn)
    exact Checks.cons (h (.expression e) (List.mem_cons_self ..)) hes

theorem checks_orders {os : List OrderExpression}
    (h : ∀ n ∈ os.map (fun o => Node.expression o.expression), Validates bindings n) :
    Checks (validateOrders bindings os)
      (AllSandboxed (os.map fun o => Node.expression o.expression)) := by
  induction os with
  | nil => exact Checks.pure'.leaf
  | cons o os ih =>
    have hos := ih fun n hn => h n (List.mem_cons_of_mem _ hn)
    have ho := h (.expression o.expression) (List.mem_cons_self ..)
    cases o with
    | asc e | desc e => exact Checks.spending (Checks.cons ho hos)

theorem checks_aggregates {l : List (Variable × AggregateExpression)}
    (h : ∀ n ∈ l.filterMap (fun a => a.2.argument.map Node.expression), Validates bindings n) :
    Checks (validateAggregates bindings l)
      (AllSandboxed (l.filterMap fun a => a.2.argument.map Node.expression)) := by
  induction l with
  | nil => exact Checks.pure'.leaf
  | cons a l ih =>
    match a with
    | (_, .countSolutions _) => exact Checks.spending (ih h)
    | (_, .functionCall _ e _) =>
      have hl := ih fun n hn => h n (List.mem_cons_of_mem _ hn)
      exact Checks.spending (Checks.cons (h (.expression e) (List.mem_cons_self ..)) hl)

theorem validates_pattern {p : GraphPattern}
    (h : ∀ n ∈ Node.ofPattern p, Validates bindings n) : Validates bindings (.pattern p) := by
  cases p with
  | bgp patterns => exact Checks.operator rfl rfl (Checks.spend _).leaf
  | values names rows => exact Checks.operatorLeaf rfl rfl rfl
  | graph | service =>
    exact (Checks.spend 1).andThen (Checks.fail _ (P := fun _ => False)) fun _ _ _ h => h.elim
  | path s p o =>
    exact Checks.operator rfl rfl (Checks.one (h (.path p) (by simp [Node.ofPattern])))
  | join l r | lateral l r | union l r | minus l r =>
    have hl := h (.pattern l) (by simp [Node.ofPattern])
    have hr := h (.pattern r) (by simp [Node.ofPattern])
    exact Checks.operator rfl rfl (Checks.cons hl (Checks.one hr))
  | leftJoin l r e =>
    have hl := h (.pattern l) (by simp [Node.ofPattern])
    have hr := h (.pattern r) (by simp [Node.ofPattern])
    cases e with
    | none => exact Checks.operator rfl rfl (Checks.cons hl (Checks.one hr))
    | some e =>
      have he := h (.expression e) (by simp [Node.ofPattern])
      exact Checks.operator rfl rfl (Checks.cons hl (Checks.cons hr (Checks.one he)))
  | filter e i | extend i v e =>
    have hi := h (.pattern i) (by simp [Node.ofPattern])
    have he := h (.expression e) (by simp [Node.ofPattern])
    exact Checks.operator rfl rfl (Checks.cons hi (Checks.one he))
  | project i _ | distinct i | reduced i | slice i _ _ =>
    exact Checks.operator rfl rfl (Checks.one (h (.pattern i) (by simp [Node.ofPattern])))
  | orderBy i os =>
    obtain ⟨hi, hos⟩ := List.forall_mem_cons.mp h
    exact Checks.operator rfl rfl (Checks.cons hi (checks_orders hos))
  | group i _ as =>
    obtain ⟨hi, has⟩ := List.forall_mem_cons.mp h
    exact Checks.operator rfl rfl (Checks.cons hi (checks_aggregates has))

theorem checks_textCall {es : List Expression} :
    Checks (validateTextCall bindings es) (AllSandboxed (es.map Node.expression)) := by
  unfold validateTextCall
  split
  · refine (Checks.push _).mono fun n _ => ?_
    exact AllSandboxed.mono (AllSandboxed.cons (sandboxed_atom rfl rfl rfl 0)
      (AllSandboxed.cons (sandboxed_atom rfl rfl rfl 0) (allSandboxed_nil 0))) (Nat.zero_le n)
  · split
    · refine (Checks.push _).mono fun n _ => ?_
      exact AllSandboxed.mono (AllSandboxed.cons (sandboxed_atom rfl rfl rfl 0)
        (AllSandboxed.cons (sandboxed_atom rfl rfl rfl 0) (allSandboxed_nil 0))) (Nat.zero_le n)
    · exact Checks.fail _
  · exact Checks.fail _
  · exact Checks.fail _

theorem validates_expression {e : Expression}
    (h : ∀ n ∈ Node.ofExpression e, Validates bindings n) :
    Validates bindings (.expression e) := by
  cases e with
  | namedNode | literal | var =>
    exact Checks.pure'.mono fun n _ => sandboxed_atom rfl rfl rfl n
  | bound =>
    exact Checks.operator rfl rfl Checks.pure'.leaf
  | binary _ l r =>
    have hl := h (.expression l) (by simp [Node.ofExpression])
    have hr := h (.expression r) (by simp [Node.ofExpression])
    exact Checks.operator rfl rfl (Checks.cons hl (Checks.one hr))
  | unary _ i =>
    exact Checks.operator rfl rfl (Checks.one (h (.expression i) (by simp [Node.ofExpression])))
  | «exists» p =>
    exact Checks.operator rfl rfl (Checks.one (h (.pattern p) (by simp [Node.ofExpression])))
  | ite c l r =>
    have hc := h (.expression c) (by simp [Node.ofExpression])
    have hl := h (.expression l) (by simp [Node.ofExpression])
    have hr := h (.expression r) (by simp [Node.ofExpression])
    exact Checks.operator rfl rfl (Checks.cons hc (Checks.cons hl (Checks.one hr)))
  | isIn l es =>
    obtain ⟨hl, hes⟩ := List.forall_mem_cons.mp h
    exact Checks.operator rfl rfl (Checks.cons hl (checks_expressions hes))
  | coalesce es => exact Checks.operator rfl rfl (checks_expressions h)
  | functionCall f es =>
    cases f with
    | custom iri =>
      have hr : Checks (if iri = matchesText then validateTextCall bindings es
          else validateExpressions bindings es) (AllSandboxed (es.map Node.expression)) := by
        split
        · exact checks_textCall
        · exact checks_expressions h
      exact Checks.operator rfl rfl hr
    | _ => exact Checks.operator rfl rfl (checks_expressions h)

theorem validates_path {p : PropertyPathExpression}
    (h : ∀ n ∈ Node.ofPath p, Validates bindings n) : Validates bindings (.path p) := by
  cases p with
  | namedNode => exact Checks.pure'.mono fun n _ => sandboxed_atom rfl rfl rfl n
  | negatedPropertySet => exact Checks.operatorLeaf rfl rfl rfl
  | reverse i | zeroOrMore i | oneOrMore i | zeroOrOne i =>
    exact Checks.operator rfl rfl (Checks.one (h (.path i) (by simp [Node.ofPath])))
  | sequence l r | alternative l r =>
    have hl := h (.path l) (by simp [Node.ofPath])
    have hr := h (.path r) (by simp [Node.ofPath])
    exact Checks.operator rfl rfl (Checks.cons hl (Checks.one hr))

/-- The traversals visit every part of the algebra. -/
theorem validates (n : Node) : Validates bindings n := by
  induction n using Node.tree.induction with
  | step n ih =>
    cases n with
    | pattern p => exact validates_pattern ih
    | expression e => exact validates_expression ih
    | path p => exact validates_path ih

/-- An accepted query is a SELECT or an ASK over the default graph whose pattern
validates within the budget. -/
theorem validateQuery_ok {query : Sparql.Query} {maxOperators : Nat} {calls : List TextCall}
    (h : validateQuery bindings query maxOperators = .ok calls) :
    (∃ p, query = .select none p ∨ query = .ask none p) ∧
      ∃ s, (validatePattern bindings query.pattern).run ⟨[], maxOperators⟩ = .ok ((), s) := by
  cases query with
  | construct | describe => cases h
  | select dataset p | ask dataset p =>
    cases dataset with
    | some _ => cases h
    | none =>
      obtain ⟨⟨_, s⟩, hs, _⟩ := bind_eq_ok.mp h
      exact ⟨⟨p, by simp⟩, s, hs⟩

/-- The sandbox: an accepted query names no other dataset, nothing in it at any
depth leaves the default graph, its operators fit the budget, and the resolution
of entity aliases is defined on it. -/
theorem validate_query_sandboxed {query : Sparql.Query} {maxOperators : Nat}
    {calls : List TextCall} (h : validateQuery bindings query maxOperators = .ok calls) :
    (∃ p, query = .select none p ∨ query = .ask none p) ∧
      (∀ n, Node.tree.Occurs (.pattern query.pattern) n → EntityIdentity.isExternal n = false) ∧
      Node.tree.count isOperator (.pattern query.pattern) ≤ maxOperators ∧
      (EntityIdentity.normalize query bindings).isSome := by
  obtain ⟨hq, s, hs⟩ := validateQuery_ok h
  obtain ⟨count, ⟨hexternal, hcount⟩, hle⟩ := validates (.pattern query.pattern) _ s hs
  refine ⟨hq, fun n hn => hexternal n (Node.tree.mem_nodes.mpr hn), ?_,
    EntityIdentity.isSome_normalize hq hexternal⟩
  simp only at hle
  omega

/-- The entities of a block that one of two properties leads to. -/
def alternativePath : GraphPattern :=
  .path (.var "s") (.alternative (.namedNode "urn:p") (.namedNode "urn:q")) (.var "o")

theorem validate_query_sandboxed_sample :
    ∃ calls, validateQuery ∅ (.select none alternativePath) 2 = .ok calls ∧
      Node.tree.count isOperator (.pattern alternativePath) ≤ 2 := by
  have hvalid : validateQuery ∅ (.select none alternativePath) 2 = .ok [] := rfl
  exact ⟨[], hvalid, (validate_query_sandboxed hvalid).2.2.1⟩

/-- The nodes of patterns and of paths, and compound expressions: the IRIs that a
path is made of are nodes of it, and take nothing from the budget. -/
def isPatternPathOrCompound : Node → Bool
  | .pattern _ | .path _ => true
  | .expression e => isCompound e

theorem path_iris_are_free :
    ∃ query calls, validateQuery ∅ query 2 = .ok calls ∧
      2 < Node.tree.count isPatternPathOrCompound (.pattern query.pattern) := by
  refine ⟨.select none alternativePath, [], rfl, ?_⟩
  simp [Sparql.Query.pattern, alternativePath, Syntax.Tree.count_eq, Node.tree, Node.children,
    Node.ofPattern, Node.ofPath, isPatternPathOrCompound]

end Neoseq.Query
