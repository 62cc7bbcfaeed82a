import Mathlib

/-! Fallible code. A computation in `Except` that succeeds is taken apart into
the steps that succeeded; `orElse` turns a missing value into an error. -/

namespace Neoseq

/-- `Option::ok_or_else`. -/
def orElse {ε γ : Type} (o : Option γ) (e : ε) : Except ε γ :=
  match o with
  | some x => .ok x
  | none => .error e

/-- An early return with an error. -/
def refuse {ε : Type} (c : Prop) [Decidable c] (e : ε) : Except ε Unit :=
  if c then .error e else .ok ()

/-- A loop that ends at the first error. -/
def checkAll {ε γ : Type} (f : γ → Except ε Unit) : List γ → Except ε Unit
  | [] => .ok ()
  | x :: rest => do
    f x
    checkAll f rest

variable {ε ε' γ δ : Type}

theorem refuse_eq_ok {c : Prop} [Decidable c] {e : ε} {u : Unit} :
    refuse c e = .ok u ↔ ¬c := by
  unfold refuse
  split
  · next h => exact iff_of_false (fun h => nomatch h) (not_not_intro h)
  · next h => exact iff_of_true rfl h

theorem bind_eq_ok {x : Except ε γ} {f : γ → Except ε δ} {b : δ} :
    (x >>= f) = .ok b ↔ ∃ a, x = .ok a ∧ f a = .ok b := by
  cases x with
  | error e => exact iff_of_false (fun h => nomatch h) (fun ⟨_, h, _⟩ => nomatch h)
  | ok a => exact ⟨fun h => ⟨a, rfl, h⟩, fun ⟨_, h, hb⟩ => by cases h; exact hb⟩

theorem pure_eq_ok {a b : γ} : (pure a : Except ε γ) = .ok b ↔ a = b :=
  ⟨Except.ok.inj, congrArg Except.ok⟩

theorem orElse_eq_ok {o : Option γ} {e : ε} {a : γ} : orElse o e = .ok a ↔ o = some a := by
  cases o with
  | none => exact iff_of_false (fun h => nomatch h) (fun h => nomatch h)
  | some x => exact ⟨fun h => congrArg some (Except.ok.inj h), fun h => congrArg _ (Option.some.inj h)⟩

theorem mapError_eq_ok {f : ε → ε'} {x : Except ε γ} {a : γ} :
    x.mapError f = .ok a ↔ x = .ok a := by
  cases x with
  | error e => exact iff_of_false (fun h => nomatch h) (fun h => nomatch h)
  | ok b => exact ⟨fun h => congrArg _ (Except.ok.inj h), fun h => congrArg _ (Except.ok.inj h)⟩

theorem map_eq_ok {f : γ → δ} {x : Except ε γ} {b : δ} :
    x.map f = .ok b ↔ ∃ a, x = .ok a ∧ f a = b := by
  cases x with
  | error e => exact iff_of_false nofun nofun
  | ok a => exact ⟨fun h => ⟨a, rfl, Except.ok.inj h⟩, fun ⟨_, h, hb⟩ => by cases h; exact congrArg _ hb⟩

theorem checkAll_eq_ok {l : List γ} {f : γ → Except ε Unit} {u : Unit} :
    checkAll f l = .ok u ↔ ∀ x ∈ l, f x = .ok () := by
  induction l with
  | nil => exact iff_of_true rfl nofun
  | cons x l ih =>
    rw [checkAll, bind_eq_ok, List.forall_mem_cons, ih]
    exact ⟨fun ⟨_, hx, hl⟩ => ⟨hx, hl⟩, fun ⟨hx, hl⟩ => ⟨_, hx, hl⟩⟩

/-- A list of results is a result where all of them are. -/
theorem mapM_id_eq_ok {xs : List (Except ε γ)} {l : List γ} :
    xs.mapM id = .ok l ↔ xs = l.map .ok := by
  induction xs generalizing l with
  | nil => cases l <;> simp [pure, Except.pure]
  | cons x xs ih =>
    rw [List.mapM_cons, bind_eq_ok]
    constructor
    · rintro ⟨a, hx, h⟩
      obtain ⟨m, hm, h⟩ := bind_eq_ok.mp h
      obtain rfl := pure_eq_ok.mp h
      rw [List.map_cons, ← ih.mp hm, ← hx]; rfl
    · intro h
      cases l with
      | nil => cases h
      | cons a l =>
        obtain ⟨rfl, hxs⟩ := List.cons.inj h
        exact ⟨a, rfl, bind_eq_ok.mpr ⟨l, ih.mpr hxs, rfl⟩⟩

/-- Results that are all present are the results of their values. -/
theorem map_ok_filterMap {xs : List (Except ε γ)} (h : ∀ x ∈ xs, ∃ a, x = .ok a) :
    xs = (xs.filterMap Except.toOption).map .ok := by
  induction xs with
  | nil => rfl
  | cons x xs ih =>
    obtain ⟨a, rfl⟩ := h x (List.mem_cons_self ..)
    exact congrArg (List.cons (Except.ok a)) (ih fun y hy => h y (List.mem_cons_of_mem _ hy))

end Neoseq
