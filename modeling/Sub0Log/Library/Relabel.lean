import Sub0Log.Library.Interleaving

/-!
# Programs inside a larger machine

A machine may have more operations and more state than the programs it runs were written for.
`Prog.relabel f back` is a program whose operations `i` are performed as `f i`, the answers
being read through `back`.

What was proved of the program is not proved again: where the larger machine does with `f i` to
a part of its state what the smaller one does with `i`, a triple of the small machine is one of
the large (**`Spec.Triple.relabel`**), the rest of the state being a frame.
-/

namespace Interleaving

variable {ι ι' : Type} {ρ : ι → Type} {ρ' : ι' → Type} {τ σ σ' α β : Type}

namespace Prog

/-- The program with its operations performed as those of another machine. -/
def relabel (f : ι → ι') (back : ∀ i, ρ' (f i) → ρ i) : Prog ρ α → Prog ρ' α
  | .ret a => .ret a
  | .op i next => .op (f i) fun r => (next (back i r)).relabel f back

theorem relabel_bind (f : ι → ι') (back : ∀ i, ρ' (f i) → ρ i) (x : Prog ρ α)
    (g : α → Prog ρ β) :
    (x >>= g).relabel f back = x.relabel f back >>= fun a => (g a).relabel f back := by
  induction x with
  | ret a => rfl
  | op i next ih =>
    rw [op_bind]
    exact congrArg (op (f i)) (funext fun r => ih (back i r))

end Prog

namespace Spec

variable {S : Spec τ σ} {J : Spec τ σ'} {sem : Sem ρ τ σ} {sem' : Sem ρ' τ σ'} {t : τ}

/-- **A triple of a part is one of the whole.** `view` is the part of the state the program
works on, `F` an assertion about the rest that its steps keep. -/
theorem Triple.relabel {f : ι → ι'} {back : ∀ i, ρ' (f i) → ρ i} (view : σ' → σ)
    {F : σ' → Prop} (hinv : ∀ s, J.inv s → S.inv (view s))
    (henv : ∀ s s', J.env t s s' → S.env t (view s) (view s')) (hF : J.Stable t F)
    (hstep : ∀ i s r s', J.inv s → F s → sem' t (f i) s r s' →
      sem t i (view s) (back i r) (view s') ∧
        (S.inv (view s') → S.guar t (view s) (view s') → J.inv s' ∧ J.guar t s s' ∧ F s'))
    {P : σ → Prop} {x : Prog ρ α} {Q : α → σ → Prop} (hx : S.Triple sem t P x Q) :
    J.Triple sem' t (fun s => P (view s) ∧ F s) (x.relabel f back) fun a s => Q a (view s) ∧ F s := by
  -- the weakest precondition of the part, wherever the program stands
  have hwp : ∀ s, J.inv s → F s → S.wp sem t x (fun a s => S.inv s ∧ Q a s) (view s) →
      J.wp sem' t (x.relabel f back) (fun a s => J.inv s ∧ Q a (view s) ∧ F s) s := by
    clear hx
    induction x with
    | ret a => exact fun s hJ hFs h => ⟨hJ, h.2, hFs⟩
    | op i next ih =>
      intro s hJ hFs h s₁ henv₁ hJ₁ r s₂ hsem
      obtain ⟨hsmall, hback⟩ := hstep i s₁ r s₂ hJ₁ (hF s s₁ henv₁ hFs) hsem
      obtain ⟨hinv₂, hguar, hrest⟩ := h (view s₁) (henv s s₁ henv₁) (hinv s₁ hJ₁) (back i r)
        (view s₂) hsmall
      obtain ⟨hJ₂, hguar₂, hF₂⟩ := hback hinv₂ hguar
      exact ⟨hJ₂, hguar₂, ih (back i r) s₂ hJ₂ hF₂ hrest⟩
  rintro s hJ ⟨hP, hFs⟩
  exact hwp s hJ hFs (hx (view s) (hinv s hJ) hP)

end Spec

end Interleaving
