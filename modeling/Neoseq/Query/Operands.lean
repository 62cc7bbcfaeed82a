import Neoseq.Query.Template

/-! The two compilations of one plan. They run in lockstep: where the direct one writes
a term, the other counts a parameter, and nothing else tells them apart. -/

namespace Neoseq.Query
open Domain Sparql

/-! ## The operands of a plan -/

def conditionOperands (field : PlanField) (op : PlanOperator) (value value2 : Option PlanValue) :
    List PlanValue :=
  match op, value with
  | .isTrue, _ | .isFalse, _ | .isSet, _ | .isEmpty, _ | _, none => []
  | .anyOf, some (.list members) =>
    ((members.filter fun member => !member.isEmpty).take planAnyOfMax).flatMap
      (memberOperands field)
  | .anyOf, some _ => []
  | .between, some value => [value, value2.getD value]
  | _, some value => [value]

mutual

/-- The operands as the reader of a plan meets them. -/
def PlanNode.operands : PlanNode → List PlanValue
  | .condition _ field op value value2 => conditionOperands field op value value2
  | .group _ _ children => operandsOf children

def operandsOf : List PlanNode → List PlanValue
  | [] => []
  | child :: rest => child.operands ++ operandsOf rest

end

/-! ## Templates of the compiler's forms -/

section Forms

variable {n : Nat} {ss ts : List Term}

theorem isEmpty_eq_true {p : GraphPattern} (h : isEmpty p = true) : p = emptyPattern := by
  cases p with
  | bgp patterns => exact congrArg GraphPattern.bgp (List.isEmpty_iff.mp h)
  | _ => cases h

theorem isEmpty_substitute (σ : Variable → Option Term) (p : GraphPattern) :
    isEmpty (p.substitute σ) = isEmpty p := by
  cases p with
  | bgp patterns => cases patterns <;> simp [GraphPattern.substitute, isEmpty]
  | leftJoin l r e => cases e <;> simp only [GraphPattern.substitute, isEmpty]
  | _ => simp only [GraphPattern.substitute, isEmpty]

theorem variables_join (p q : GraphPattern) : (join p q).variables = p.variables ++ q.variables := by
  unfold join
  split
  · next hp => rw [isEmpty_eq_true hp]; rfl
  · split
    · next hq => rw [isEmpty_eq_true hq]; simp [emptyPattern, GraphPattern.variables]
    · rw [GraphPattern.variables]

theorem substitute_join (σ : Variable → Option Term) (p q : GraphPattern) :
    (join p q).substitute σ = join (p.substitute σ) (q.substitute σ) := by
  unfold join
  rw [isEmpty_substitute, isEmpty_substitute]
  split
  · rfl
  · split
    · rfl
    · rw [GraphPattern.substitute]

theorem Template.join {p p' q q' : GraphPattern} (hp : Template n ss p p')
    (hq : Template (n + ss.length) ts q q') : Template n (ss ++ ts) (join p q) (join p' q') :=
  Template.map₂ variables_join substitute_join hp hq

theorem Template.filter {p p' : GraphPattern} {e e' : Expression} (hp : Template n ss p p')
    (he : Template (n + ss.length) ts e e') :
    Template n (ss ++ ts) (filter p e) (filter p' e') :=
  Template.map₂ (fun _ _ => rfl) (fun _ _ _ => rfl) hp he

theorem Template.exists {p p' : GraphPattern} (hp : Template n ts p p') :
    Template n ts (Expression.exists p) (Expression.exists p') :=
  Template.map (fun _ => rfl) (fun _ _ => rfl) hp

theorem Template.unary (op : UnaryOperator) {e e' : Expression} (he : Template n ts e e') :
    Template n ts (Expression.unary op e) (Expression.unary op e') :=
  Template.map (fun _ => rfl) (fun _ _ => rfl) he

theorem Template.binary (op : BinaryOperator) {e e' f f' : Expression} (he : Template n ss e e')
    (hf : Template (n + ss.length) ts f f') :
    Template n (ss ++ ts) (Expression.binary op e f) (Expression.binary op e' f') :=
  Template.map₂ (fun _ _ => rfl) (fun _ _ _ => rfl) he hf

theorem Template.isIn {e e' : Expression} {es es' : List Expression} (he : Template n ss e e')
    (hes : Template (n + ss.length) ts es es') :
    Template n (ss ++ ts) (Expression.isIn e es) (Expression.isIn e' es') :=
  Template.map₂ (fun _ _ => rfl) (fun _ _ _ => rfl) he hes

theorem Template.call {function : Function} {es es' : List Expression}
    (hes : Template n ts es es') :
    Template n ts (Expression.functionCall function es) (Expression.functionCall function es') :=
  Template.map (fun _ => rfl) (fun _ _ => rfl) hes

theorem Template.singleton {e e' : Expression} (he : Template n ts e e') :
    Template n ts [e] [e'] :=
  Template.map (f := fun e => [e]) (fun e => List.append_nil e.variables) (fun _ _ => rfl) he

theorem Template.append {es es' fs fs' : List Expression} (hes : Template n ss es es')
    (hfs : Template (n + ss.length) ts fs fs') : Template n (ss ++ ts) (es ++ fs) (es' ++ fs') :=
  Template.map₂ variablesOf_append substituteAll_append hes hfs

theorem template_nil : Template n [] ([] : List Expression) [] :=
  template_fixed nofun fun _ _ => rfl

theorem Template.isEmpty {es es' : List Expression} (h : Template n ts es es') :
    es'.isEmpty = es.isEmpty ∧ (es.isEmpty = true → ts = []) := by
  obtain ⟨σ, rfl⟩ := h.fill
  have hempty : (substituteAll σ es').isEmpty = es'.isEmpty := by
    cases es' <;> rfl
  refine ⟨hempty.symm, fun hes => ?_⟩
  obtain rfl := List.isEmpty_iff.mp (hempty ▸ hes)
  have hparameters := h.numbered.parameters
  simpa [Substitutes.occurring, variablesOf] using hparameters.symm

theorem template_emptyPattern : Template n [] emptyPattern emptyPattern :=
  template_fixed nofun fun _ _ => rfl

theorem template_var {v : Variable} (hv : IsLocal v) :
    Template n [] (Expression.var v) (Expression.var v) :=
  template_fixed (fun w hw => List.mem_singleton.mp hw ▸ hv) fun σ hσ => by
    have hnone : σ v = none := hσ v (List.mem_singleton.mpr rfl)
    show (σ v).elim _ _ = _
    rw [hnone]; rfl

theorem template_term {t : Term} : Template n [] (TermPattern.term t) (TermPattern.term t) :=
  template_fixed nofun fun _ _ => rfl

theorem template_termVar {v : Variable} (hv : IsLocal v) :
    Template n [] (TermPattern.var v) (TermPattern.var v) :=
  template_fixed (fun w hw => List.mem_singleton.mp hw ▸ hv) fun σ hσ => by
    have hnone : σ v = none := hσ v (List.mem_singleton.mpr rfl)
    show (σ v).elim _ _ = _
    rw [hnone]; rfl

theorem head?_drop_of_prefix {t : Term} {all : List Term} (h : [t] <+: all.drop n) :
    all[n]? = some t := by
  obtain ⟨rest, hrest⟩ := h
  rw [← List.head?_drop, ← hrest]; rfl

/-- A parameter stands for the term of its number. -/
theorem template_parameter {t : Term} :
    Template n [t] (TermPattern.term t) (TermPattern.var (parameter n)) where
  numbered := numbered_parameter n
  fills all h := by
    show (bindOperands all (parameter n)).elim _ _ = _
    rw [bindOperands_parameter, head?_drop_of_prefix h]; rfl

theorem template_operand {t : Term} :
    Template n [t] (Expression.ofTerm t) (Expression.var (parameter n)) where
  numbered := numbered_parameter n
  fills all h := by
    show (bindOperands all (parameter n)).elim _ _ = _
    rw [bindOperands_parameter, head?_drop_of_prefix h]; rfl

theorem Template.relation {predicate : FieldPredicate} {o o' : TermPattern}
    (ho : Template n ts o o') :
    Template n ts (relation subjectVariable predicate o)
      (relation subjectVariable predicate o') where
  numbered := by
    have hsubject : Numbered n 0 [subjectVariable] :=
      numbered_of_locals fun v hv => List.mem_singleton.mp hv ▸ isLocal_subject
    have happend := hsubject.append (by simpa using ho.numbered)
    cases predicate with
    | named iri =>
      simpa [Query.relation, Substitutes.occurring, GraphPattern.variables,
        TriplePattern.variables, TermPattern.variables, NamedNodePattern.variables] using happend
    | path p =>
      simpa [Query.relation, Substitutes.occurring, GraphPattern.variables,
        TermPattern.variables] using happend
  fills all h := by
    have hsubject : (TermPattern.var subjectVariable).substitute (bindOperands all) =
        .var subjectVariable := (template_termVar isLocal_subject (n := n)).fills all ⟨_, rfl⟩
    have hobject : o'.substitute (bindOperands all) = o := ho.fills all h
    cases predicate with
    | named iri =>
      simp [Query.relation, Substitutes.substitute, GraphPattern.substitute,
        TriplePattern.substitute, NamedNodePattern.substitute, hsubject, hobject]
    | path p =>
      simp [Query.relation, Substitutes.substitute, GraphPattern.substitute, hsubject, hobject]

/-- A pattern joined with the relation to a local. -/
theorem Template.relate {p p' : GraphPattern} (hp : Template n ss p p')
    (predicate : FieldPredicate) (k : Nat) :
    Template n ss
      (Query.join p (Query.relation subjectVariable predicate (.var (localName "v" k))))
      (Query.join p' (Query.relation subjectVariable predicate (.var (localName "v" k)))) := by
  rw [← List.append_nil ss]
  exact hp.join (template_termVar (isLocal_localName k)).relation

theorem Template.arguments {e e' f f' : Expression} (he : Template n ss e e')
    (hf : Template (n + ss.length) ts f f') :
    Template n (ss ++ ts) [e, f] [e', f'] := he.singleton.append hf.singleton

theorem Template.lowercase {e e' : Expression} (he : Template n ts e e') :
    Template n ts (lowercase e) (lowercase e') := he.singleton.call

theorem Template.lowercaseString {e e' : Expression} (he : Template n ts e e') :
    Template n ts (lowercaseString e) (lowercaseString e') := he.singleton.call.lowercase

/-- The operators with one operand compare a local with it. -/
theorem comparison_template (lex : Lexical) (field : PlanField) {op : PlanOperator}
    (hpositive : op.positive = none) (hbool : ¬(op = .isTrue ∨ op = .isFalse))
    (hset : op ≠ .isSet) (hany : op ≠ .anyOf) (hbetween : op ≠ .between) :
    ∃ c : Except QueryError (Expression → Expression → Expression),
      (∀ l r, comparison lex field op l r = some (c.map fun f => f l r)) ∧
      ∀ f, c = .ok f → ∀ (n : Nat) (ts : List Term) (l r r' : Expression),
        Template n [] l l → Template n ts r r' → Template n ts (f l r) (f l r') := by
  cases op with
  | notContains | notEquals | isEmpty => cases hpositive
  | isTrue => exact absurd (.inl rfl) hbool
  | isFalse => exact absurd (.inr rfl) hbool
  | isSet => exact absurd rfl hset
  | anyOf => exact absurd rfl hany
  | between => exact absurd rfl hbetween
  | equals =>
    refine ⟨.ok (.binary .equal), fun _ _ => rfl, ?_⟩
    rintro f ⟨⟩ n ts l r r' hl hr
    exact hl.binary _ hr
  | lt =>
    refine ⟨.ok (.binary .less), fun _ _ => rfl, ?_⟩
    rintro f ⟨⟩ n ts l r r' hl hr
    exact hl.binary _ hr
  | lte =>
    refine ⟨.ok (.binary .lessOrEqual), fun _ _ => rfl, ?_⟩
    rintro f ⟨⟩ n ts l r r' hl hr
    exact hl.binary _ hr
  | gt =>
    refine ⟨.ok (.binary .greater), fun _ _ => rfl, ?_⟩
    rintro f ⟨⟩ n ts l r r' hl hr
    exact hl.binary _ hr
  | gte =>
    refine ⟨.ok (.binary .greaterOrEqual), fun _ _ => rfl, ?_⟩
    rintro f ⟨⟩ n ts l r r' hl hr
    exact hl.binary _ hr
  | startsWith =>
    refine ⟨.ok fun l r => .functionCall .strStarts [Query.lowercaseString l, Query.lowercase r],
      fun _ _ => rfl, ?_⟩
    rintro f ⟨⟩ n ts l r r' hl hr
    exact (hl.lowercaseString.arguments hr.lowercase).call
  | endsWith =>
    refine ⟨.ok fun l r => .functionCall .strEnds [Query.lowercaseString l, Query.lowercase r],
      fun _ _ => rfl, ?_⟩
    rintro f ⟨⟩ n ts l r r' hl hr
    exact (hl.lowercaseString.arguments hr.lowercase).call
  | contains =>
    by_cases hcontent : field = .content
    · refine ⟨(named lex (neoNs ++ "matchesText")).map fun iri l r =>
        .functionCall (.custom iri) [l, r], fun l r => ?_, ?_⟩
      · rw [comparison, if_pos hcontent]
        cases named lex (neoNs ++ "matchesText") <;> rfl
      · intro f hf n ts l r r' hl hr
        obtain ⟨iri, _, rfl⟩ := map_eq_ok.mp hf
        exact (hl.arguments hr).call
    · refine ⟨.ok fun l r => .functionCall .contains [Query.lowercaseString l, Query.lowercase r],
        fun l r => ?_, ?_⟩
      · rw [comparison, if_neg hcontent]; rfl
      · rintro f ⟨⟩ n ts l r r' hl hr
        exact (hl.lowercaseString.arguments hr.lowercase).call

end Forms

/-! ## Two runs in lockstep -/

section Runs

variable (lex : Lexical) (graphId : GraphId) (today : LocalDate)

/-- Where `x` succeeds on direct operands, `y` does so on parameters from `n` on, one
for each of `operands`, with the same locals. -/
def Simulates {α : Type} (x y : Compile α) (operands : List PlanValue) (n : Nat)
    (Q : List Term → α → α → Prop) : Prop :=
  ∀ l a s, x ⟨.direct graphId today, l⟩ = .ok (a, s) → ∃ terms b l',
    s = ⟨.direct graphId today, l'⟩ ∧
    operands.mapM (operandTerm lex graphId today) = .ok terms ∧
    y ⟨.parameterized n, l⟩ = .ok (b, ⟨.parameterized (n + terms.length), l'⟩) ∧ Q terms a b

variable {lex graphId today} {α β : Type} {x y : Compile α} {ops ops' : List PlanValue} {n : Nat}
  {Q Q' : List Term → α → α → Prop}

namespace Simulates

theorem pure {a b : α} (h : Q [] a b) :
    Simulates lex graphId today (pure a) (pure b) [] n Q := by
  intro l a' s hrun
  obtain ⟨rfl, rfl⟩ := Prod.mk.inj (Except.ok.inj hrun)
  exact ⟨[], b, l, rfl, rfl, rfl, h⟩

theorem mono (hx : Simulates lex graphId today x y ops n Q)
    (h : ∀ ts a b, Q ts a b → Q' ts a b) : Simulates lex graphId today x y ops n Q' := by
  intro l a s hrun
  obtain ⟨ts, b, l', hs, hops, hy, hq⟩ := hx l a s hrun
  exact ⟨ts, b, l', hs, hops, hy, h ts a b hq⟩

theorem bind {f g : α → Compile β} {R : List Term → β → β → Prop}
    (hx : Simulates lex graphId today x y ops n Q)
    (hf : ∀ ts a b, Q ts a b →
      Simulates lex graphId today (f a) (g b) ops' (n + ts.length) fun us => R (ts ++ us)) :
    Simulates lex graphId today (x >>= f) (y >>= g) (ops ++ ops') n R := by
  intro l c s hrun
  have hbind : (x >>= f) ⟨.direct graphId today, l⟩ =
      x ⟨.direct graphId today, l⟩ >>= fun r => f r.1 r.2 := rfl
  obtain ⟨⟨a, s'⟩, ha, hc⟩ := bind_eq_ok.mp (hbind ▸ hrun)
  obtain ⟨ts, b, m, rfl, hts, hy, hq⟩ := hx l a s' ha
  obtain ⟨us, d, k, hs, hus, hg, hr⟩ := hf ts a b hq m c s hc
  refine ⟨ts ++ us, d, k, hs, ?_, ?_, hr⟩
  · rw [List.mapM_append, hts, hus]; rfl
  · show (y ⟨.parameterized n, l⟩ >>= fun r => g r.1 r.2) = _
    rw [hy, List.length_append, ← Nat.add_assoc]
    exact hg

/-- A last step that reads no operand. -/
theorem last {f g : α → Compile β} {R : List Term → β → β → Prop}
    (hx : Simulates lex graphId today x y ops n Q)
    (hf : ∀ ts a b, Q ts a b →
      Simulates lex graphId today (f a) (g b) [] (n + ts.length) fun us => R (ts ++ us)) :
    Simulates lex graphId today (x >>= f) (y >>= g) ops n R :=
  List.append_nil ops ▸ hx.bind hf

/-- A first step that reads no operand. -/
theorem first {f g : α → Compile β} {R : List Term → β → β → Prop}
    (hx : Simulates lex graphId today x y [] n fun ts a b => ts = [] ∧ Q ts a b)
    (hf : ∀ a b, Q [] a b → Simulates lex graphId today (f a) (g b) ops n R) :
    Simulates lex graphId today (x >>= f) (y >>= g) ops n R :=
  List.nil_append ops ▸ hx.bind fun _ a b ⟨hts, hq⟩ => hts ▸ hf a b (hts ▸ hq)

theorem none (hx : Simulates lex graphId today x y [] n Q) :
    Simulates lex graphId today x y [] n fun ts a b => ts = [] ∧ Q ts a b := by
  intro l a s hrun
  obtain ⟨ts, b, l', hs, hops, hy, hq⟩ := hx l a s hrun
  exact ⟨ts, b, l', hs, hops, hy, (Except.ok.inj hops).symm, hq⟩

/-- A step outside the compiler's state, whose result the two runs may use differently. -/
theorem liftMap (c : Except QueryError β) (f g : β → α) :
    Simulates lex graphId today (liftM (c.map f)) (liftM (c.map g)) [] n
      fun ts a b => ts = [] ∧ ∃ k, c = .ok k ∧ a = f k ∧ b = g k := by
  intro l a s hrun
  obtain ⟨a', ha, hrun⟩ := bind_eq_ok.mp hrun
  obtain ⟨rfl, rfl⟩ := Prod.mk.inj (Except.ok.inj hrun)
  obtain ⟨k, rfl, rfl⟩ := map_eq_ok.mp ha
  exact ⟨[], g k, l, rfl, rfl, rfl, rfl, k, rfl, rfl, rfl⟩

theorem lift (c : Except QueryError α) :
    Simulates lex graphId today (liftM c) (liftM c) [] n fun ts a b => ts = [] ∧ a = b := by
  have hid : c.map id = c := by cases c <;> rfl
  have h : Simulates lex graphId today (liftM (c.map id)) (liftM (c.map id)) [] n _ :=
    liftMap c id id
  rw [hid] at h
  exact h.mono fun ts a b ⟨hts, k, _, hak, hbk⟩ => ⟨hts, hak.trans hbk.symm⟩

end Simulates

theorem simulates_local (start : String) :
    Simulates lex graphId today (localVariable start) (localVariable start) [] n
      fun ts a b => ts = [] ∧ a = b ∧ ∃ k, a = localName start k := by
  intro l a s hrun
  obtain ⟨rfl, rfl⟩ := Prod.mk.inj (Except.ok.inj hrun)
  exact ⟨[], _, _, rfl, rfl, rfl, rfl, rfl, _, rfl⟩

theorem simulates_scalarTerm (value : PlanValue) :
    Simulates lex graphId today (scalarTerm lex value) (scalarTerm lex value) [value] n
      fun ts a b => ∃ t, ts = [t] ∧ a = .term t ∧ b = .var (parameter n) := by
  intro l a s hrun
  obtain ⟨t, ht, hrun⟩ := map_eq_ok.mp hrun
  obtain ⟨rfl, rfl⟩ := Prod.mk.inj hrun
  refine ⟨[t], _, l, rfl, ?_, rfl, t, rfl, rfl, rfl⟩
  rw [List.mapM_cons, ht]; rfl

theorem simulates_scalarExpression (value : PlanValue) :
    Simulates lex graphId today (scalarExpression lex value) (scalarExpression lex value) [value] n
      fun ts a b => Template n ts a b := by
  unfold scalarExpression
  refine (simulates_scalarTerm value).last fun ts a b h => ?_
  obtain ⟨t, rfl, rfl, rfl⟩ := h
  have htemplate : Template n ([t] ++ []) (Expression.ofTerm t) (Expression.var (parameter n)) :=
    template_operand
  cases t with
  | namedNode iri => exact .pure htemplate
  | literal value datatype language => exact .pure htemplate

/-- A loop over members, the templates of whose results are put together. -/
theorem Simulates.mapM {f : β → Compile α} {ops : β → List PlanValue}
    (view : α → List Expression) (xs : List β)
    (h : ∀ x n, Simulates lex graphId today (f x) (f x) (ops x) n
      fun ts a b => Template n ts (view a) (view b)) :
    Simulates lex graphId today (xs.mapM f) (xs.mapM f) (xs.flatMap ops) n
      fun ts as bs => Template n ts (as.flatMap view) (bs.flatMap view) := by
  induction xs generalizing n with
  | nil => exact .pure template_nil
  | cons x xs ih =>
    rw [List.mapM_cons, List.flatMap_cons]
    refine (h x n).bind fun ts a b hab => ?_
    refine ih.last fun us as bs habs => .pure ?_
    rw [List.append_nil, List.flatMap_cons, List.flatMap_cons]
    exact hab.append habs

theorem simulates_listMember (field : PlanField) (member : String) :
    Simulates lex graphId today (listMember lex field member) (listMember lex field member)
      (memberOperands field member) n fun ts a b => Template n ts a b := by
  have h : Simulates lex graphId today (listMember lex field member) (listMember lex field member)
      ((memberOperands field member).flatMap fun v => [v]) n fun ts as bs =>
        Template n ts (as.flatMap fun e => [e]) (bs.flatMap fun e => [e]) :=
    Simulates.mapM _ _ fun v m => (simulates_scalarExpression v).mono fun _ _ _ hab => hab.singleton
  simpa using h

/-! ## Conditions -/

/-- What a condition or a group does to the pattern before it: its parameters follow
those of the pattern, and only a change brings any. -/
def Grows (n : Nat) (ss ts : List Term) (a b : GraphPattern × Bool) : Prop :=
  a.2 = b.2 ∧ (a.2 = false → ts = []) ∧ Template n (ss ++ ts) a.1 b.1

variable {ss : List Term} {p p' : GraphPattern}

theorem grows_refl (hp : Template n ss p p') : Grows n ss [] (p, false) (p', false) :=
  ⟨rfl, fun _ => rfl, by rwa [List.append_nil]⟩

theorem grows_changed {ts : List Term} {q q' : GraphPattern} (hq : Template n (ss ++ ts) q q') :
    Grows n ss ts (q, true) (q', true) := ⟨rfl, nofun, hq⟩

theorem simulates_applyPresence (hp : Template n ss p p') (predicate : FieldPredicate) :
    Simulates lex graphId today (applyPresence p predicate) (applyPresence p' predicate) []
      (n + ss.length) (Grows n ss) := by
  refine (simulates_local "v").first fun a b h => ?_
  obtain ⟨rfl, k, rfl⟩ := h
  exact .pure (grows_changed (by simpa using hp.relate predicate k))

theorem simulates_applyMembers (hp : Template n ss p p') (field : PlanField)
    (predicate : FieldPredicate) (members : List String) :
    Simulates lex graphId today (applyMembers lex p field predicate members)
      (applyMembers lex p' field predicate members)
      (((members.filter fun member => !member.isEmpty).take planAnyOfMax).flatMap
        (memberOperands field)) (n + ss.length) (Grows n ss) := by
  unfold applyMembers
  refine (Simulates.mapM id _ fun member m => simulates_listMember field member).last
    fun ts as bs h => ?_
  rw [List.flatMap_id, List.flatMap_id] at h
  obtain ⟨hempty, hnone⟩ := h.isEmpty
  dsimp only
  by_cases has : as.flatten.isEmpty = true
  · rw [if_pos has, if_pos (hempty.trans has)]
    obtain rfl := hnone has
    exact .pure (grows_refl hp)
  · rw [if_neg has, if_neg (hempty ▸ has)]
    refine (simulates_local "v").first fun a b hab => ?_
    obtain ⟨rfl, k, rfl⟩ := hab
    have hmember := (template_var (isLocal_localName k)).isIn h
    refine .pure (grows_changed ?_)
    simpa using (hp.relate predicate k).filter hmember

theorem simulates_applyComparison (hp : Template n ss p p') (field : PlanField)
    (predicate : FieldPredicate) {op : PlanOperator} (value : PlanValue)
    (value2 : Option PlanValue) (hpositive : op.positive = none)
    (hbool : ¬(op = .isTrue ∨ op = .isFalse)) (hset : op ≠ .isSet) (hany : op ≠ .anyOf) :
    Simulates lex graphId today (applyComparison lex p field predicate op value value2)
      (applyComparison lex p' field predicate op value value2)
      (value :: if op = .between then [value2.getD value] else []) (n + ss.length)
      (Grows n ss) := by
  unfold applyComparison
  refine (simulates_local "v").first fun a b hab => ?_
  obtain ⟨rfl, k, rfl⟩ := hab
  rw [← List.singleton_append]
  refine (simulates_scalarExpression value).bind fun ts r r' hr => ?_
  have hmatched := hp.relate predicate k
  by_cases hbetween : op = .between
  · rw [if_pos hbetween, if_pos hbetween, if_pos hbetween]
    refine (simulates_scalarExpression _).last fun us u u' hu => ?_
    have hlower := (template_var (isLocal_localName k)).binary .greaterOrEqual hr
    have hupper := (template_var (isLocal_localName k)).binary .lessOrEqual hu
    refine .pure (grows_changed ?_)
    simpa using hmatched.filter (hlower.binary .and hupper)
  · rw [if_neg hbetween, if_neg hbetween, if_neg hbetween]
    obtain ⟨c, hc, htemplate⟩ := comparison_template lex field hpositive hbool hset hany hbetween
    rw [hc, hc]
    refine (Simulates.liftMap c _ _).first fun e e' h => ?_
    obtain ⟨f, hf, rfl, rfl⟩ := h
    have hcompared := htemplate f hf _ ts (.var (localName "v" k)) r r'
      (template_var (isLocal_localName k)) hr
    refine .pure (grows_changed ?_)
    rw [List.append_nil]
    exact hmatched.filter hcompared

theorem conditionOperands_constant {field : PlanField} {op : PlanOperator}
    {value value2 : Option PlanValue}
    (h : (op = .isTrue ∨ op = .isFalse) ∨ op = .isSet ∨ value = none) :
    conditionOperands field op value value2 = [] := by
  rcases h with (rfl | rfl) | rfl | rfl
  · rfl
  · rfl
  · rfl
  · cases op <;> rfl

theorem conditionOperands_comparison {field : PlanField} {op : PlanOperator} {value : PlanValue}
    {value2 : Option PlanValue} (hbool : ¬(op = .isTrue ∨ op = .isFalse)) (hset : op ≠ .isSet)
    (hempty : op ≠ .isEmpty) (hany : op ≠ .anyOf) :
    conditionOperands field op (some value) value2 =
      value :: if op = .between then [value2.getD value] else [] := by
  cases op <;> first | rfl | simp_all

theorem simulates_applyPositiveCondition (hp : Template n ss p p') (subject : PlanSubject)
    (field : PlanField) {op : PlanOperator} (value value2 : Option PlanValue)
    (hpositive : op.positive = none) :
    Simulates lex graphId today (applyPositiveCondition lex subject p field op value value2)
      (applyPositiveCondition lex subject p' field op value value2)
      (conditionOperands field op value value2) (n + ss.length) (Grows n ss) := by
  unfold applyPositiveCondition
  refine (Simulates.lift _).first fun predicate _ h => ?_
  subst h
  by_cases hbool : op = .isTrue ∨ op = .isFalse
  · rw [if_pos hbool, if_pos hbool, conditionOperands_constant (.inl hbool)]
    exact .pure (grows_changed (hp.join template_term.relation))
  rw [if_neg hbool, if_neg hbool]
  by_cases hset : op = .isSet
  · rw [if_pos hset, if_pos hset, conditionOperands_constant (.inr (.inl hset))]
    exact (simulates_applyPresence hp predicate).last fun ts a b h => .pure (by rwa [List.append_nil])
  rw [if_neg hset, if_neg hset]
  have hempty : op ≠ .isEmpty := by
    rintro rfl
    cases hpositive
  cases value with
  | none =>
    rw [conditionOperands_constant (.inr (.inr rfl))]
    exact .pure (grows_refl hp)
  | some value =>
    by_cases hany : op = .anyOf
    · subst hany
      cases value with
      | list members => exact simulates_applyMembers hp field predicate members
      | _ => exact .pure (grows_refl hp)
    rw [conditionOperands_comparison hbool hset hempty hany]
    dsimp only
    rw [if_neg hany, if_neg hany]
    by_cases hterm : op = .equals ∧ equalsByTerm field value = true
    · rw [if_pos hterm, if_pos hterm, hterm.1]
      refine (simulates_scalarTerm value).last fun ts a b h => ?_
      obtain ⟨t, rfl, rfl, rfl⟩ := h
      refine .pure (grows_changed ?_)
      rw [List.append_nil]
      exact hp.join template_parameter.relation
    · rw [if_neg hterm, if_neg hterm]
      exact simulates_applyComparison hp field predicate value value2 hpositive hbool hset hany

theorem conditionOperands_positive (field : PlanField) {op positive : PlanOperator}
    (value value2 : Option PlanValue) (h : op.positive = some positive) :
    conditionOperands field positive value value2 = conditionOperands field op value value2 ∧
      positive.positive = none := by
  cases op with
  | notContains => cases h; cases value <;> exact ⟨rfl, rfl⟩
  | notEquals => cases h; cases value <;> exact ⟨rfl, rfl⟩
  | isEmpty => cases h; exact ⟨rfl, rfl⟩
  | _ => cases h

theorem simulates_applyCondition (hp : Template n ss p p') (subject : PlanSubject)
    (field : PlanField) (op : PlanOperator) (value value2 : Option PlanValue) :
    Simulates lex graphId today (applyCondition lex subject p field op value value2)
      (applyCondition lex subject p' field op value value2)
      (conditionOperands field op value value2) (n + ss.length) (Grows n ss) := by
  unfold applyCondition
  cases hpositive : op.positive with
  | none => exact simulates_applyPositiveCondition hp subject field value value2 hpositive
  | some positive =>
    obtain ⟨hoperands, hnone⟩ := conditionOperands_positive field value value2 hpositive
    rw [← hoperands]
    refine (simulates_applyPositiveCondition template_emptyPattern subject field value value2
      hnone).last fun ts branch branch' h => ?_
    obtain ⟨branch, changed⟩ := branch
    obtain ⟨branch', changed'⟩ := branch'
    obtain ⟨rfl, hts, hbranch⟩ := h
    cases changed with
    | false =>
      obtain rfl := hts rfl
      exact .pure (grows_refl hp)
    | true =>
      have hdenied := hbranch.exists.unary .not
      by_cases hset : positive = .isSet
      · subst hset
        refine .pure (grows_changed ?_)
        simpa using hp.filter hdenied
      · show Simulates _ _ _ (if positive ≠ .isSet then _ else _) (if positive ≠ .isSet then _ else _)
          _ _ _
        rw [if_pos hset, if_pos hset]
        refine (simulates_applyPositiveCondition template_emptyPattern subject field none none
          rfl).none.first fun present present' h => ?_
        obtain ⟨-, -, hpresent⟩ := h
        refine .pure (grows_changed ?_)
        -- the presence check stands before the branch but is compiled after it
        have hboth := hpresent.renumber.exists.binary .and hdenied
        simpa using hp.filter hboth

/-! ## Groups -/

theorem variables_foldl_or (e : Expression) (es : List Expression) :
    (es.foldl (.binary .or) e).variables = e.variables ++ variablesOf es := by
  induction es generalizing e with
  | nil => exact (List.append_nil _).symm
  | cons f es ih => rw [List.foldl_cons, ih, Expression.variables, variablesOf, List.append_assoc]

theorem substitute_foldl_or (σ : Variable → Option Term) (e : Expression) (es : List Expression) :
    (es.foldl (.binary .or) e).substitute σ =
      (substituteAll σ es).foldl (.binary .or) (e.substitute σ) := by
  induction es generalizing e with
  | nil => rfl
  | cons f es ih => rw [List.foldl_cons, ih, Expression.substitute]; rfl

theorem grows_alternatives {ts : List Term} {es es' : List Expression} (hp : Template n ss p p')
    (mode : PlanMatch) (h : Template (n + ss.length) ts es es') :
    Grows n ss ts (applyAlternatives p mode es) (applyAlternatives p' mode es') := by
  obtain ⟨σ, hσ⟩ := h.fill
  cases es' with
  | nil =>
    obtain rfl : es = [] := hσ.symm
    obtain rfl := h.isEmpty.2 rfl
    exact grows_refl hp
  | cons e' rest' =>
    obtain ⟨e, rest, rfl⟩ : ∃ e rest, es = e :: rest := ⟨_, _, hσ.symm⟩
    have hany : Template (n + ss.length) ts (rest.foldl (.binary .or) e)
        (rest'.foldl (.binary .or) e') := by
      refine ⟨?_, fun all hall => ?_⟩
      · show Numbered _ _ (rest'.foldl (.binary .or) e').variables
        rw [variables_foldl_or]
        exact h.numbered
      · obtain ⟨he, hrest⟩ := List.cons.inj (h.fills all hall)
        show (rest'.foldl (.binary .or) e').substitute _ = _
        rw [substitute_foldl_or, ← he, ← hrest]
    refine grows_changed ?_
    by_cases hmode : mode = .none
    · rw [if_pos hmode, if_pos hmode]
      exact hp.filter (hany.unary .not)
    · rw [if_neg hmode, if_neg hmode]
      exact hp.filter hany

variable (subject : PlanSubject)

mutual

theorem simulates_applyNode {n : Nat} {ss : List Term} {p p' : GraphPattern}
    (hp : Template n ss p p') : ∀ node : PlanNode,
    Simulates lex graphId today (applyNode lex subject p node) (applyNode lex subject p' node)
      node.operands (n + ss.length) (Grows n ss)
  | .condition _ field op value value2 => simulates_applyCondition hp subject field op value value2
  | .group _ .all children =>
    (simulates_applyAll hp false children).mono fun _ _ _ h => h.1
  | .group _ .any children =>
    (simulates_applyBranches (n + ss.length) children).last fun _ _ _ h =>
      .pure (List.append_nil _ ▸ grows_alternatives hp .any h)
  | .group _ .none children =>
    (simulates_applyBranches (n + ss.length) children).last fun _ _ _ h =>
      .pure (List.append_nil _ ▸ grows_alternatives hp .none h)

theorem simulates_applyAll {n : Nat} {ss : List Term} {p p' : GraphPattern}
    (hp : Template n ss p p') (changed : Bool) : ∀ children : List PlanNode,
    Simulates lex graphId today (applyAll lex subject p changed children)
      (applyAll lex subject p' changed children) (operandsOf children) (n + ss.length)
      fun ts a b => Grows n ss ts a b ∧ (changed = true → a.2 = true)
  | [] => .pure ⟨⟨rfl, fun _ => rfl, by rwa [List.append_nil]⟩, fun h => h⟩
  | child :: rest => by
    refine (simulates_applyNode hp child).bind fun ts a b h => ?_
    obtain ⟨q, c⟩ := a
    obtain ⟨q', c'⟩ := b
    obtain ⟨rfl, hts, hq⟩ := h
    have hrest := simulates_applyAll hq (changed || c) rest
    rw [List.length_append, ← Nat.add_assoc] at hrest
    refine hrest.mono fun us a b h => ?_
    obtain ⟨⟨hsame, hus, htemplate⟩, hkept⟩ := h
    have hnone : a.2 = false → ts ++ us = [] := by
      intro hfalse
      have hor : (changed || c) = false := by
        rw [← Bool.not_eq_true]
        intro hor
        rw [hkept hor] at hfalse
        cases hfalse
      rw [hts (Bool.or_eq_false_iff.mp hor).2, hus hfalse]; rfl
    refine ⟨⟨hsame, hnone, by rwa [← List.append_assoc]⟩, fun h => hkept ?_⟩
    rw [h]; rfl

/-- Branches begin with nothing before them. -/
theorem simulates_applyBranches (n : Nat) : ∀ children : List PlanNode,
    Simulates lex graphId today (applyBranches lex subject children)
      (applyBranches lex subject children) (operandsOf children) n
      fun ts a b => Template n ts a b
  | [] => .pure template_nil
  | child :: rest => by
    have hempty : Template n [] emptyPattern emptyPattern := template_emptyPattern
    refine (simulates_applyNode hempty child).bind fun ts a b h => ?_
    obtain ⟨q, c⟩ := a
    obtain ⟨q', c'⟩ := b
    obtain ⟨rfl, hts, hq⟩ := h
    refine (simulates_applyBranches (n + ts.length) rest).last fun us es es' hes => .pure ?_
    rw [List.append_nil]
    cases c with
    | false =>
      obtain rfl := hts rfl
      exact hes
    | true => exact hq.exists.singleton.append hes

end

theorem template_selectSubjects {n : Nat} {ts : List Term} {q q' : GraphPattern}
    (h : Template n ts q q') (limit : Nat) :
    Template n ts (selectSubjects q limit) (selectSubjects q' limit) where
  numbered := by
    have hsubjects : Numbered (n + ts.length) 0 [subjectVariable, subjectVariable] := by
      refine numbered_of_locals fun v hv => ?_
      have hv : v = subjectVariable := by simpa using hv
      exact hv ▸ isLocal_subject
    have happend := h.numbered.append hsubjects
    simpa [Substitutes.occurring, selectSubjects, Query.variables, GraphPattern.variables,
      orderVariables, Expression.variables] using happend
  fills all hall := by
    have hq : q'.substitute (bindOperands all) = q := h.fills all hall
    have hsubject : (Expression.var subjectVariable).substitute (bindOperands all) =
        .var subjectVariable := (template_var isLocal_subject (n := 0)).fills all List.nil_prefix
    simp [Substitutes.substitute, selectSubjects, Query.substitute, GraphPattern.substitute,
      substituteOrders, hq, hsubject]

theorem simulates_compilePlan (plan : BuiltQueryPlan) :
    Simulates lex graphId today (compilePlan lex subject plan) (compilePlan lex subject plan)
      plan.whereClause.operands n (Template n) := by
  unfold compilePlan
  refine (Simulates.lift _).first fun subjectType _ h => ?_
  subst h
  refine (Simulates.lift _).first fun type _ h => ?_
  subst h
  have hobject : Template n [] (TermPattern.term (.namedNode subjectType))
      (TermPattern.term (.namedNode subjectType)) := template_term
  have hroot : Template n []
      (relation subjectVariable (.named type) (.term (.namedNode subjectType)))
      (relation subjectVariable (.named type) (.term (.namedNode subjectType))) := hobject.relation
  refine (simulates_applyNode subject hroot plan.whereClause).last fun ts a b h => ?_
  exact .pure (by simpa using template_selectSubjects h.2.2 plan.limit.get)

end Runs

/-! ## The stored source and the executed query -/

theorem template_of_compile {lex : Lexical} {graphId : GraphId} {today : LocalDate}
    {plan : BuiltQueryPlan} {direct : Sparql.Query}
    (h : plan.compile lex graphId today = .ok direct) :
    plan.validate = .ok () ∧ ∃ source terms, compileParameterized lex plan = .ok source ∧
      plan.whereClause.operands.mapM (operandTerm lex graphId today) = .ok terms ∧
      Template 0 terms direct source := by
  obtain ⟨_, hvalid, h⟩ := bind_eq_ok.mp h
  obtain ⟨⟨a, s⟩, hrun, rfl⟩ := map_eq_ok.mp h
  have hsim : Simulates lex graphId today _ _ _ 0 _ := simulates_compilePlan plan.subject plan
  obtain ⟨terms, source, l, -, hterms, hsource, htemplate⟩ := hsim 0 a s hrun
  refine ⟨hvalid, source, terms, ?_, hterms, htemplate⟩
  rw [compileParameterized, hsource]; rfl

/-- Where a plan compiles for execution, it compiles to a source whose parameters stand
for the plan's operands: each once, in order, and apart from every other variable. With
the terms of the execution in their place the source is what is executed. -/
theorem compileParameterized_of_compile (lex : Lexical) (graphId : GraphId) (today : LocalDate)
    (plan : BuiltQueryPlan) (direct : Sparql.Query)
    (h : plan.compile lex graphId today = .ok direct) :
    ∃ source terms, compileParameterized lex plan = .ok source ∧
      plan.whereClause.operands.mapM (operandTerm lex graphId today) = .ok terms ∧
      source.variables.filter isParameter = (List.range terms.length).map parameter ∧
      ((List.range terms.length).map parameter).Nodup ∧
      (∀ v ∈ source.variables, isParameter v = false →
        v = subjectVariable ∨ ∃ k, v = localName "v" k) ∧
      (∀ i k, parameter i ≠ localName "v" k) ∧
      source.substitute (bindOperands terms) = direct := by
  obtain ⟨_, source, terms, hsource, hterms, htemplate⟩ := template_of_compile h
  refine ⟨source, terms, hsource, hterms, ?_, ?_, htemplate.numbered.locals, ?_, ?_⟩
  · rw [List.range_eq_range']
    exact htemplate.numbered.parameters
  · exact List.nodup_range.map fun _ _ => parameter_inj.mp
  · intro i k heq
    have hlocal := (isLocal_localName k).isParameter
    rw [← heq, isParameter_parameter] at hlocal
    cases hlocal
  · exact htemplate.fills terms List.prefix_rfl

/-- The source stored beside a plan that compiles is the text of a template of it. -/
theorem derivePlanSource_of_compile {codec : Codec} {lex : Lexical} {text : PlanText}
    {graphId : GraphId} {today : LocalDate} {stored : Domain.QueryPlan} {plan : BuiltQueryPlan}
    {direct : Sparql.Query} (hstored : stored.validate codec = .ok ())
    (hdecode : text.decode stored.payload = .ok plan) (hversion : plan.version = stored.version)
    (h : plan.compile lex graphId today = .ok direct) :
    ∃ source terms, derivePlanSource codec lex text stored =
        .ok (derivedSourceProvenance ++ toString stored.version ++ ";fnv1a32=" ++
          hex8 (fnv1a32 stored.payload.toUTF8.data.toList) ++ "\n" ++ text.toSparql source ++ "\n") ∧
      source.substitute (bindOperands terms) = direct := by
  obtain ⟨hvalid, source, terms, hsource, -, htemplate⟩ := template_of_compile h
  refine ⟨source, terms, ?_, htemplate.fills terms List.prefix_rfl⟩
  have hsame : refuse (plan.version ≠ stored.version)
      (invalidPlan "plan envelope and payload versions disagree") = .ok () :=
    refuse_eq_ok.mpr (not_not_intro hversion)
  simp only [derivePlanSource, hstored, hdecode, Except.mapError, hsame, hvalid, hsource, bind,
    Except.bind]
  rfl

def sampleLexical : Lexical := ⟨fun _ => .ok (), fun _ => "1"⟩

theorem g_valid : validate "g" "graph id" maxIdLen = .ok () := by decide

theorem hundred_valid : 1 ≤ 100 ∧ 100 ≤ planLimitMax := by decide

def authoredGraph : GraphId := ⟨"g", g_valid⟩

def authoredToday : LocalDate := ⟨"2026-08-05", by decide⟩

/-- Blocks that are not on a page, are scheduled within a week and name one of two
values of a property of the graph. -/
def authoredPlan : BuiltQueryPlan where
  version := queryPlanVersion
  subject := .block
  whereClause := .group "root" .all [
    .condition "a" .page .notEquals (some (.page "p")) none,
    .condition "b" (.property "builtin.task-scheduled") .between
      (some (.relative ⟨.week, 0⟩)) (some (.date "2026-08-09")),
    .group "g" .any [
      .condition "c" (.property "user.topic") .anyOf (some (.list ["x", "", "y"])) none,
      .condition "d" .content .isEmpty none none]]
  columns := [⟨"text", .content, none⟩]
  limit := ⟨100, hundred_valid⟩

theorem compileParameterized_of_compile_sample :
    ∃ direct source terms, authoredPlan.compile sampleLexical authoredGraph authoredToday = .ok direct ∧
      compileParameterized sampleLexical authoredPlan = .ok source ∧ terms.length = 7 ∧
      source.variables.filter isParameter = (List.range 7).map parameter ∧
      source.substitute (bindOperands terms) = direct := by
  obtain ⟨direct, hdirect⟩ : ∃ direct,
      authoredPlan.compile sampleLexical authoredGraph authoredToday = .ok direct := ⟨_, rfl⟩
  obtain ⟨source, terms, hsource, hterms, hparameters, -, -, -, hfills⟩ :=
    compileParameterized_of_compile sampleLexical authoredGraph authoredToday authoredPlan direct hdirect
  obtain ⟨written, hwritten, hlength⟩ : ∃ written,
      authoredPlan.whereClause.operands.mapM (operandTerm sampleLexical authoredGraph authoredToday) =
        .ok written ∧ written.length = 7 := ⟨_, rfl, rfl⟩
  obtain rfl : written = terms := Except.ok.inj (hwritten.symm.trans hterms)
  rw [hlength] at hparameters
  exact ⟨direct, source, written, hdirect, hsource, hlength, hparameters, hfills⟩

end Neoseq.Query
