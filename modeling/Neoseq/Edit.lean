import Neoseq.Result

/-! Computations that write as they go. What such a computation wrote before it
failed stays written, so a failure leaves no trace only where nothing was written
before it. A computation is followed in two ways: `Keeps` says what every run of
it preserves, failed runs too, and `Ends` says how the run from a state ends. -/

namespace Neoseq

/-- A state transformer that keeps what it wrote when it fails. -/
def Edit (ε σ γ : Type) := σ → Except ε γ × σ

namespace Edit
variable {ε σ τ γ δ : Type}

def run (x : Edit ε σ γ) (s : σ) : Except ε γ × σ := x s

instance : Monad (Edit ε σ) where
  pure a := fun s => (.ok a, s)
  bind x f := fun s =>
    match x s with
    | (.ok a, t) => f a t
    | (.error e, t) => (.error e, t)

def fail (e : ε) : Edit ε σ γ := fun s => (.error e, s)

/-- A fallible look at the state. -/
def read (f : σ → Except ε γ) : Edit ε σ γ := fun s => (f s, s)

def write (f : σ → σ) : Edit ε σ Unit := fun s => (.ok (), f s)

/-- A write that happens whole or not at all. -/
def update (f : σ → Except ε σ) : Edit ε σ Unit := fun s =>
  match f s with
  | .ok t => (.ok (), t)
  | .error e => (.error e, s)

/-- A computation on a part of the state. -/
def zoom (view : σ → τ) (put : τ → σ → σ) (x : Edit ε τ γ) : Edit ε σ γ := fun s =>
  ((x (view s)).1, put (x (view s)).2 s)

def each (f : δ → Edit ε σ Unit) : List δ → Edit ε σ Unit
  | [] => pure ()
  | a :: rest => do
    f a
    each f rest

theorem run_bind (x : Edit ε σ γ) (f : γ → Edit ε σ δ) (s : σ) :
    (x >>= f).run s =
      match x.run s with
      | (.ok a, t) => (f a).run t
      | (.error e, t) => (.error e, t) := rfl

theorem run_update {f : σ → Except ε σ} {s t : σ} (h : f s = .ok t) :
    (update f).run s = (.ok (), t) := by
  unfold Edit.run update
  rw [h]

theorem run_read {f : σ → Except ε γ} {s : σ} {a : γ} (h : f s = .ok a) :
    (read f).run s = (.ok a, s) := by
  unfold Edit.run read
  rw [h]

theorem run_read_bind {f : σ → Except ε γ} {x : γ → Edit ε σ δ} {s : σ} {a : γ}
    (h : f s = .ok a) : (read f >>= x).run s = (x a).run s := by
  rw [run_bind, run_read h]

theorem run_read_bind_error {f : σ → Except ε γ} {x : γ → Edit ε σ δ} {s : σ} {e : ε}
    (h : f s = .error e) : (read f >>= x).run s = (.error e, s) := by
  rw [run_bind]
  unfold Edit.run read
  rw [h]

/-- The run of a sequence whose first part ends well. -/
theorem run_bind_ok {x : Edit ε σ γ} {f : γ → Edit ε σ δ} {s t : σ} {a : γ}
    (h : x.run s = (.ok a, t)) : (x >>= f).run s = (f a).run t := by
  rw [run_bind, h]

/-- What a sequence that ended well did. -/
theorem run_bind_eq_ok {x : Edit ε σ γ} {f : γ → Edit ε σ δ} {s u : σ} {b : δ} :
    (x >>= f).run s = (.ok b, u) ↔ ∃ a t, x.run s = (.ok a, t) ∧ (f a).run t = (.ok b, u) := by
  rw [run_bind]
  generalize x.run s = r
  obtain ⟨o, t⟩ := r
  cases o with
  | error e => exact iff_of_false nofun nofun
  | ok a =>
    constructor
    · intro h
      exact ⟨a, t, rfl, h⟩
    · intro ⟨a', t', hr, h⟩
      obtain ⟨ho, rfl⟩ := Prod.mk.inj hr
      obtain rfl := Except.ok.inj ho
      exact h

theorem bind_assoc (x : Edit ε σ γ) (f : γ → Edit ε σ δ) {ζ : Type} (g : δ → Edit ε σ ζ) :
    (x >>= f) >>= g = x >>= fun a => f a >>= g := by
  funext s
  show ((x >>= f) >>= g).run s = (x >>= fun a => f a >>= g).run s
  rw [run_bind, run_bind, run_bind]
  generalize x.run s = r
  obtain ⟨o, t⟩ := r
  cases o with
  | error e => rfl
  | ok a => rfl

theorem run_zoom (view : σ → τ) (put : τ → σ → σ) (x : Edit ε τ γ) (s : σ) :
    (zoom view put x).run s = ((x.run (view s)).1, put (x.run (view s)).2 s) := rfl

/-! ## What every run preserves -/

/-- Whatever the outcome, the state before and the state after are related. -/
def Keeps (R : σ → σ → Prop) (x : Edit ε σ γ) : Prop := ∀ s, R s (x.run s).2

section Keeps
variable {R : σ → σ → Prop}

theorem Keeps.pure [Std.Refl R] (a : γ) : Keeps R (Pure.pure a : Edit ε σ γ) := fun s => Std.Refl.refl s

theorem Keeps.bind [IsTrans σ R] {x : Edit ε σ γ} {f : γ → Edit ε σ δ} (hx : Keeps R x)
    (hf : ∀ a, Keeps R (f a)) : Keeps R (x >>= f) := by
  intro s
  rw [run_bind]
  have hs := hx s
  generalize x.run s = r at hs
  obtain ⟨o, t⟩ := r
  cases o with
  | error e => exact hs
  | ok a => exact IsTrans.trans _ _ _ hs (hf a t)

theorem Keeps.read [Std.Refl R] (f : σ → Except ε γ) : Keeps R (Edit.read f) := fun s => Std.Refl.refl s

/-- A part that keeps `S` keeps `R` in the whole. -/
theorem Keeps.zoom {S : τ → τ → Prop} {view : σ → τ} {put : τ → σ → σ} {x : Edit ε τ γ}
    (hx : Keeps S x) (h : ∀ s t, S (view s) t → R s (put t s)) :
    Keeps R (Edit.zoom view put x) := fun s => h s _ (hx (view s))

end Keeps

/-! ## Refusals -/

/-- The errors that runs end in are ones that `E` allows. -/
def Refuses (E : ε → Prop) (x : Edit ε σ γ) : Prop := ∀ s e t, x.run s = (.error e, t) → E e

section Refuses
variable {E : ε → Prop}

theorem Refuses.pure (a : γ) : Refuses E (Pure.pure a : Edit ε σ γ) := by
  intro s e t h
  cases h

theorem Refuses.fail {e : ε} (h : E e) : Refuses E (Edit.fail e : Edit ε σ γ) := by
  intro s e' t he
  cases he
  exact h

theorem Refuses.read {f : σ → Except ε γ} (h : ∀ s e, f s = .error e → E e) :
    Refuses E (Edit.read f) := fun s e _ he => h s e (Prod.mk.inj he).1

theorem Refuses.write (f : σ → σ) : Refuses E (Edit.write f : Edit ε σ Unit) := by
  intro s e t h
  cases h

theorem Refuses.update {f : σ → Except ε σ} (h : ∀ s e, f s = .error e → E e) :
    Refuses E (Edit.update f) := by
  intro s e t he
  unfold Edit.run Edit.update at he
  cases hf : f s with
  | error e' =>
    rw [hf] at he
    cases he
    exact h s e hf
  | ok s' =>
    rw [hf] at he
    cases he

theorem Refuses.bind {x : Edit ε σ γ} {f : γ → Edit ε σ δ} (hx : Refuses E x)
    (hf : ∀ a, Refuses E (f a)) : Refuses E (x >>= f) := by
  intro s e t he
  rw [run_bind] at he
  cases hr : x.run s with
  | mk r s' =>
    rw [hr] at he
    cases r with
    | error e' =>
      cases he
      exact hx s e _ hr
    | ok a => exact hf a s' e t he

theorem Refuses.zoom {view : σ → τ} {put : τ → σ → σ} {x : Edit ε τ γ} (hx : Refuses E x) :
    Refuses E (Edit.zoom view put x) := fun s e _ he =>
  hx (view s) e (x.run (view s)).2 (Prod.ext (Prod.mk.inj he).1 rfl)

theorem Refuses.each {f : δ → Edit ε σ Unit} {l : List δ} (h : ∀ a ∈ l, Refuses E (f a)) :
    Refuses E (Edit.each f l) := by
  induction l with
  | nil => exact Refuses.pure ()
  | cons a rest ih =>
    exact Refuses.bind (h a (List.mem_cons_self ..)) fun _ =>
      ih fun b hb => h b (List.mem_cons_of_mem _ hb)

end Refuses

/-! ## Both endings -/

/-- The run from `s` ends with a value and a state that `Q` allows, or with an error that `E`
allows. -/
def Ends (E : ε → Prop) (x : Edit ε σ γ) (s : σ) (Q : γ → σ → Prop) : Prop :=
  match x.run s with
  | (.ok a, t) => Q a t
  | (.error e, _) => E e

section Ends
variable {E : ε → Prop}

theorem Ends.of_ok {x : Edit ε σ γ} {s t : σ} {a : γ} {Q : γ → σ → Prop}
    (hrun : x.run s = (.ok a, t)) (h : Q a t) : x.Ends E s Q := by
  unfold Ends
  rw [hrun]
  exact h

theorem Ends.of_error {x : Edit ε σ γ} {s t : σ} {e : ε} {Q : γ → σ → Prop}
    (hrun : x.run s = (.error e, t)) (h : E e) : x.Ends E s Q := by
  unfold Ends
  rw [hrun]
  exact h

theorem Ends.eq_ok {x : Edit ε σ γ} {s t : σ} {a : γ} {Q : γ → σ → Prop} (h : x.Ends E s Q)
    (hrun : x.run s = (.ok a, t)) : Q a t := by
  unfold Ends at h
  rw [hrun] at h
  exact h

theorem Ends.imp {x : Edit ε σ γ} {s : σ} {Q Q' : γ → σ → Prop} (h : x.Ends E s Q)
    (hQ : ∀ a t, Q a t → Q' a t) : x.Ends E s Q' := by
  unfold Ends at h ⊢
  generalize x.run s = r at h
  obtain ⟨o, t⟩ := r
  cases o with
  | error e => exact h
  | ok a => exact hQ a t h

theorem Ends.bind {x : Edit ε σ γ} {f : γ → Edit ε σ δ} {s : σ} {Q : δ → σ → Prop}
    (h : x.Ends E s fun a t => (f a).Ends E t Q) : (x >>= f).Ends E s Q := by
  unfold Ends at h ⊢
  rw [run_bind]
  generalize x.run s = r at h
  obtain ⟨o, t⟩ := r
  cases o with
  | error e => exact h
  | ok a => exact h

/-- After a part that ends well. -/
theorem Ends.after {x : Edit ε σ γ} {f : γ → Edit ε σ δ} {s t : σ} {a : γ} {Q : δ → σ → Prop}
    (hrun : x.run s = (.ok a, t)) (h : (f a).Ends E t Q) : (x >>= f).Ends E s Q :=
  .bind (.of_ok hrun h)

/-- What every run keeps is so where it ends well. -/
theorem Keeps.ends {R : σ → σ → Prop} {x : Edit ε σ γ} (hx : Keeps R x) {s : σ}
    (hE : ∀ e t, x.run s = (.error e, t) → E e) : x.Ends E s fun _ t => R s t := by
  unfold Ends
  have hR := hx s
  cases hr : x.run s with
  | mk o t =>
    rw [hr] at hR
    cases o with
    | error e => exact hE e t hr
    | ok a => exact hR

end Ends

end Edit

end Neoseq
