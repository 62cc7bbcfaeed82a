import Neoseq.Domain.Property

/-! Ids and property keys are ordered by their texts. -/

namespace Neoseq.Domain

instance {kind : String} : LinearOrder (OpaqueString kind) where
  le a b := a.asStr ≤ b.asStr
  lt a b := a.asStr < b.asStr
  le_refl a := le_refl a.asStr
  le_trans _ _ _ := le_trans (α := String)
  le_antisymm _ _ hab hba := OpaqueString.ext (le_antisymm hab hba)
  le_total a b := le_total a.asStr b.asStr
  lt_iff_le_not_ge a b := lt_iff_le_not_ge (a := a.asStr) (b := b.asStr)
  toDecidableLE a b := inferInstanceAs (Decidable (a.asStr ≤ b.asStr))
  toDecidableLT a b := inferInstanceAs (Decidable (a.asStr < b.asStr))
  toDecidableEq := inferInstance

theorem PropertyKey.ext {a b : PropertyKey} (h : a.asStr = b.asStr) : a = b := by
  cases a
  cases b
  subst h
  rfl

instance : LinearOrder PropertyKey where
  le a b := a.asStr ≤ b.asStr
  lt a b := a.asStr < b.asStr
  le_refl a := le_refl a.asStr
  le_trans _ _ _ := le_trans (α := String)
  le_antisymm _ _ hab hba := PropertyKey.ext (le_antisymm hab hba)
  le_total a b := le_total a.asStr b.asStr
  lt_iff_le_not_ge a b := lt_iff_le_not_ge (a := a.asStr) (b := b.asStr)
  toDecidableLE a b := inferInstanceAs (Decidable (a.asStr ≤ b.asStr))
  toDecidableLT a b := inferInstanceAs (Decidable (a.asStr < b.asStr))
  toDecidableEq := inferInstance

end Neoseq.Domain
