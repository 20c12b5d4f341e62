/-!
# Exclusive ownership

Holders own resources; `Exclusive` says that no resource has two holders. A step of a
system hands resources on (`Exclusive.move`), gives some up (`Exclusive.drop`) or brings
in resources nobody holds (`Exclusive.fresh`).
-/

namespace Rdb.Lib

universe u v

variable {H : Type u} {R : Type v} {own own' : H → R → Prop}

def Exclusive (own : H → R → Prop) : Prop := ∀ a b r, own a r → own b r → a = b

variable (h : Exclusive own)
include h

theorem Exclusive.drop (hsub : ∀ a r, own' a r → own a r) : Exclusive own' :=
  fun a b r ha hb => h a b r (hsub a r ha) (hsub b r hb)

theorem Exclusive.update {b : H} (hrest : ∀ a r, a ≠ b → own' a r → own a r)
    (hb : ∀ a r, a ≠ b → own' b r → ¬ own' a r) : Exclusive own' := by
  intro a c r ha hc
  by_cases hab : a = b
  · by_cases hcb : c = b
    · rw [hab, hcb]
    · exact absurd hc (hb c r hcb (hab ▸ ha))
  · by_cases hcb : c = b
    · exact absurd ha (hb a r hab (hcb ▸ hc))
    · exact h a c r (hrest a r hab ha) (hrest c r hcb hc)

theorem Exclusive.move {a b : H} (hrest : ∀ c r, c ≠ b → own' c r → own c r)
    (htake : ∀ r, own' b r → own a r) (hleft : ∀ r, own' b r → ¬ own' a r) : Exclusive own' := by
  refine h.update hrest fun c r hcb hb hc => ?_
  have hca : c = a := h c a r (hrest c r hcb hc) (htake r hb)
  exact hleft r hb (hca ▸ hc)

theorem Exclusive.fresh {b : H} (hrest : ∀ c r, c ≠ b → own' c r → own c r)
    (hnew : ∀ c r, own' b r → ¬ own c r) : Exclusive own' :=
  h.update hrest fun c r hcb hb hc => hnew c r hb (hrest c r hcb hc)

end Rdb.Lib
