import Sub0Log.Library.Interleaving

/-!
# Runs and their ghosts

A ghost beside the shared state: every step computes the next one from the states before and
after it, and no operation reads it. Besides, a step may be taken for granted to start and to end
in states of which an invariant `J` is known already.

Every run among such states has its ghosts (`exists_ghosts`), so what is proved of the ghosts
of all runs holds of runs.
-/

namespace Interleaving

variable {ι : Type} {ρ : ι → Type} {τ σ α γ : Type}

/-- The semantics among the states of `J`, with a ghost. -/
def ghosted (J : σ → Prop) (update : σ → σ → γ → γ) (sem : Sem ρ τ σ) : Sem ρ τ (σ × γ) :=
  fun t i s r s' => sem t i s.1 r s'.1 ∧ J s.1 ∧ J s'.1 ∧ s'.2 = update s.1 s'.1 s.2

variable [DecidableEq τ] {J : σ → Prop} (update : σ → σ → γ → γ) {sem : Sem ρ τ σ}
variable {p p' : Pool ρ τ σ α}

/-- **Every run has its ghosts.** -/
theorem exists_ghosts (h : Reachable sem p p') (hJ : ∀ q, Reachable sem p q → J q.shared) (g : γ) :
    ∃ g', Reachable (ghosted J update sem) ⟨(p.shared, g), p.prog⟩ ⟨(p'.shared, g'), p'.prog⟩ := by
  induction h with
  | refl => exact ⟨g, Relation.ReflTransGen.refl⟩
  | @tail q q' hrun hstep ih =>
    obtain ⟨g', hghosts⟩ := ih
    have hq : J q.shared := hJ q hrun
    have hq' : J q'.shared := hJ q' (Relation.ReflTransGen.tail hrun hstep)
    obtain ⟨t, hby⟩ := hstep
    cases hby with
    | @op i next r s' hprog hsem =>
      have hghost : ghosted J update sem t i (q.shared, g') r (s', update q.shared s' g') :=
        ⟨hsem, hq, hq', rfl⟩
      exact ⟨update q.shared s' g', Relation.ReflTransGen.tail hghosts ⟨t, StepBy.op hprog hghost⟩⟩

/-- A property of the state and its ghost that every step keeps, whatever its thread does. -/
theorem ghosted_invariant {K : σ → γ → Prop}
    (hstep : ∀ t i s r s' g, sem t i s r s' → K s g → K s' (update s s' g))
    {q q' : Pool ρ τ (σ × γ) α} (hrun : Reachable (ghosted J update sem) q q')
    (hstart : K q.shared.1 q.shared.2) : K q'.shared.1 q'.shared.2 := by
  induction hrun with
  | refl => exact hstart
  | tail _ h ih =>
    obtain ⟨t, hby⟩ := h
    cases hby with
    | @op i next r s' hprog hsem =>
      show K s'.1 s'.2
      rw [hsem.2.2.2]
      exact hstep t i _ r s'.1 _ hsem.1 ih

end Interleaving
