import Mathlib
/-! Writes that wait in a line. Each was made for what those before it leave. -/

namespace Neoseq.Collections

variable {σ ω : Type} {apply : σ → ω → Option σ} {expects : ω → σ → Prop}

/-- Each write finds what it expects when those before it are applied. -/
def Fits (apply : σ → ω → Option σ) (expects : ω → σ → Prop) : σ → List ω → Prop
  | _, [] => True
  | state, write :: writes => expects write state ∧
      ∀ next, apply state write = some next → Fits apply expects next writes

theorem fits_append {state : σ} {writes writes' : List ω} :
    Fits apply expects state (writes ++ writes') ↔ Fits apply expects state writes ∧
      ∀ next, writes.foldlM apply state = some next → Fits apply expects next writes' := by
  induction writes generalizing state with
  | nil =>
    refine ⟨fun h => ⟨trivial, fun next hnext => ?_⟩, fun h => h.2 state rfl⟩
    cases hnext
    exact h
  | cons write writes ih =>
    constructor
    · intro h
      refine ⟨⟨h.1, fun next hnext => (ih.mp (h.2 next hnext)).1⟩, fun last hlast => ?_⟩
      obtain ⟨next, hnext, hrest⟩ := Option.bind_eq_some_iff.mp hlast
      exact (ih.mp (h.2 next hnext)).2 last hrest
    · intro h
      refine ⟨h.1.1, fun next hnext => ih.mpr ⟨h.1.2 next hnext, fun last hlast => h.2 last ?_⟩⟩
      rw [List.foldlM_cons, hnext]
      exact hlast

/-- A write that changes nothing leaves the line, whatever became of it. -/
theorem Fits.skip {state : σ} {writes writes' : List ω} {write : ω}
    (h : Fits apply expects state (writes ++ write :: writes'))
    (hskip : ∀ state, apply state write = some state) :
    Fits apply expects state (writes ++ writes') := by
  obtain ⟨hbefore, hafter⟩ := fits_append.mp h
  exact fits_append.mpr ⟨hbefore, fun next hnext => (hafter next hnext).2 next (hskip next)⟩

/-- A write joins the line that was made for what the line leaves. -/
theorem Fits.push {state : σ} {writes : List ω} {write : ω}
    (h : Fits apply expects state writes)
    (hlast : ∀ next, writes.foldlM apply state = some next → expects write next) :
    Fits apply expects state (writes ++ [write]) :=
  fits_append.mpr ⟨h, fun next hnext => ⟨hlast next hnext, fun _ _ => trivial⟩⟩

end Neoseq.Collections
