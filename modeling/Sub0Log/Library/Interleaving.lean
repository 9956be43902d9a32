import Mathlib

/-!
# Programs that interleave over a shared state

A program is a tree of operations, `Prog ρ α`: each node performs one operation and
goes on with its answer. What an operation does to the shared state is a relation
`sem t i s r s'` (thread `t`, operation `i`, answer `r`), so an operation may be
nondeterministic or have no answer at all in some state. A `Pool` is a shared state
and one program a thread; a step lets any one thread perform its next operation.

The proof method is rely–guarantee over a global invariant. `Spec` fixes

* `inv`, what every reachable shared state satisfies;
* `env t`, what thread `t` relies on: how the *other* threads may change the state.

`Spec.wp` is the weakest precondition of a program under that interference, and
`Spec.Triple` the usual triple, with one rule a program constructor
(`Triple.pure`, `Triple.bind`, `Triple.op`, `Triple.conseq`). **`Spec.reachable`** is
the soundness theorem: if every thread's program meets its precondition initially, the
invariant holds in every reachable pool and every thread that has finished has
established its postcondition.
-/

namespace Interleaving

/-! ### Programs -/

/-- A program over operations `ι` with answers `ρ`, returning an `α`. -/
inductive Prog {ι : Type} (ρ : ι → Type) (α : Type) : Type
  | ret (a : α) : Prog ρ α
  | op (i : ι) (next : ρ i → Prog ρ α) : Prog ρ α

namespace Prog

variable {ι : Type} {ρ : ι → Type} {α β γ : Type}

/-- Run `x`, then what it returns selects. -/
protected def bind : Prog ρ α → (α → Prog ρ β) → Prog ρ β
  | ret a, f => f a
  | op i next, f => op i fun r => (next r).bind f

instance : Monad (Prog ρ) where
  pure := ret
  bind := Prog.bind

@[simp] theorem pure_eq (a : α) : (pure a : Prog ρ α) = ret a := rfl

@[simp] theorem ret_bind (a : α) (f : α → Prog ρ β) : (ret a >>= f) = f a := rfl

@[simp] theorem op_bind (i : ι) (next : ρ i → Prog ρ α) (f : α → Prog ρ β) :
    (op i next >>= f) = op i fun r => next r >>= f := rfl

theorem bind_ret (x : Prog ρ α) : (x >>= ret) = x := by
  induction x with
  | ret a => rfl
  | op i next ih =>
    rw [op_bind]
    exact congrArg (op i) (funext ih)

theorem bind_assoc (x : Prog ρ α) (f : α → Prog ρ β) (g : β → Prog ρ γ) :
    (x >>= f >>= g) = (x >>= fun a => f a >>= g) := by
  induction x with
  | ret a => rfl
  | op i next ih =>
    rw [op_bind, op_bind, op_bind]
    exact congrArg (op i) (funext ih)

/-- Perform one operation and return its answer. -/
def perform (i : ι) : Prog ρ (ρ i) := op i ret

end Prog

/-! ### Pools -/

variable {ι : Type} {ρ : ι → Type} {τ σ α β : Type}

/-- The meaning of the operations: `sem t i s r s'` when thread `t`, performing `i` in
state `s`, may get the answer `r` and leave the state `s'`. -/
abbrev Sem (ρ : ι → Type) (τ σ : Type) : Type := τ → (i : ι) → σ → ρ i → σ → Prop

/-- A shared state and what each thread has still to do. -/
structure Pool (ρ : ι → Type) (τ σ α : Type) where
  shared : σ
  prog : τ → Prog ρ α

section Steps

variable [DecidableEq τ]

/-- Thread `t` performs its next operation. -/
inductive StepBy (sem : Sem ρ τ σ) (t : τ) : Pool ρ τ σ α → Pool ρ τ σ α → Prop
  | op {p : Pool ρ τ σ α} {i : ι} {next : ρ i → Prog ρ α} {r : ρ i} {s' : σ}
      (hprog : p.prog t = .op i next) (hsem : sem t i p.shared r s') :
      StepBy sem t p ⟨s', Function.update p.prog t (next r)⟩

/-- One step of the pool: some thread performs its next operation. -/
def Step (sem : Sem ρ τ σ) (p p' : Pool ρ τ σ α) : Prop := ∃ t, StepBy sem t p p'

/-- `p'` is reached from `p` by any interleaving of steps. -/
def Reachable (sem : Sem ρ τ σ) : Pool ρ τ σ α → Pool ρ τ σ α → Prop :=
  Relation.ReflTransGen (Step sem)

/-- `p'` is reached from `p` by steps of thread `t` alone. -/
def ReachableBy (sem : Sem ρ τ σ) (t : τ) : Pool ρ τ σ α → Pool ρ τ σ α → Prop :=
  Relation.ReflTransGen (StepBy sem t)

theorem ReachableBy.reachable {sem : Sem ρ τ σ} {t : τ} {p p' : Pool ρ τ σ α}
    (h : ReachableBy sem t p p') : Reachable sem p p' := by
  induction h with
  | refl => exact Relation.ReflTransGen.refl
  | tail _ hstep ih => exact Relation.ReflTransGen.tail ih ⟨t, hstep⟩

end Steps

section Runs

variable [DecidableEq τ]

/-- A program run to its end, every operation answered by `answer`. -/
def Prog.exec (answer : (i : ι) → σ → ρ i × σ) : Prog ρ α → σ → α × σ
  | .ret a, s => (a, s)
  | .op i next, s => (next (answer i s).1).exec answer (answer i s).2

omit [DecidableEq τ] in
/-- What is run first is run first. -/
theorem exec_bind (answer : (i : ι) → σ → ρ i × σ) (x : Prog ρ α) (f : α → Prog ρ β) (s : σ) :
    (x >>= f).exec answer s = (f (x.exec answer s).1).exec answer (x.exec answer s).2 := by
  induction x generalizing s with
  | ret a => rfl
  | op i next ih => exact ih _ _

/-- The operations met on the way satisfy `ok`. -/
def Prog.passes (answer : (i : ι) → σ → ρ i × σ) (ok : ι → σ → Bool) : Prog ρ α → σ → Bool
  | .ret _, _ => true
  | .op i next, s => ok i s && (next (answer i s).1).passes answer ok (answer i s).2

omit [DecidableEq τ] in
theorem passes_of_all (answer : (i : ι) → σ → ρ i × σ) (x : Prog ρ α) (s : σ) :
    x.passes answer (fun _ _ => true) s = true := by
  induction x generalizing s with
  | ret a => rfl
  | op i next ih => exact ih _ _

/-- Where every operation that is met has its answer, a thread that runs alone returns. -/
theorem passes_reachable {sem : Sem ρ τ σ} {t : τ} {answer : (i : ι) → σ → ρ i × σ}
    {ok : ι → σ → Bool} (h : ∀ i s, ok i s = true → sem t i s (answer i s).1 (answer i s).2)
    (p : Pool ρ τ σ α) (hpasses : (p.prog t).passes answer ok p.shared = true) :
    ReachableBy sem t p ⟨((p.prog t).exec answer p.shared).2,
      Function.update p.prog t (.ret ((p.prog t).exec answer p.shared).1)⟩ := by
  obtain ⟨s, prog⟩ := p
  change (prog t).passes answer ok s = true at hpasses
  show ReachableBy sem t ⟨s, prog⟩ ⟨((prog t).exec answer s).2,
    Function.update prog t (.ret ((prog t).exec answer s).1)⟩
  generalize hx : prog t = x at hpasses ⊢
  induction x generalizing s prog with
  | ret a =>
    have hsame : Function.update prog t (.ret a) = prog := by
      rw [← hx, Function.update_eq_self]
    show ReachableBy sem t ⟨s, prog⟩ ⟨s, Function.update prog t (.ret a)⟩
    rw [hsame]
    exact Relation.ReflTransGen.refl
  | op i next ih =>
    obtain ⟨hok, hnext⟩ := (Bool.and_eq_true _ _).mp hpasses
    have hstep : StepBy sem t (⟨s, prog⟩ : Pool ρ τ σ α)
        ⟨(answer i s).2, Function.update prog t (next (answer i s).1)⟩ :=
      StepBy.op hx (h i s hok)
    have hrest := ih (answer i s).1 (answer i s).2
      (Function.update prog t (next (answer i s).1)) (Function.update_self _ _ _) hnext
    rw [Function.update_idem] at hrest
    exact Relation.ReflTransGen.head hstep hrest

/-- Where every operation has an answer, a thread that runs alone returns. -/
theorem exec_reachable {sem : Sem ρ τ σ} {t : τ} {answer : (i : ι) → σ → ρ i × σ}
    (h : ∀ i s, sem t i s (answer i s).1 (answer i s).2) (p : Pool ρ τ σ α) :
    ReachableBy sem t p ⟨((p.prog t).exec answer p.shared).2,
      Function.update p.prog t (.ret ((p.prog t).exec answer p.shared).1)⟩ :=
  passes_reachable (fun i s _ => h i s) p (passes_of_all answer (p.prog t) p.shared)

/-- A program for at most `n` of its operations, each answered by `answer`. -/
def Prog.execN (answer : (i : ι) → σ → ρ i × σ) : Nat → Prog ρ α → σ → Prog ρ α × σ
  | 0, x, s => (x, s)
  | _ + 1, .ret a, s => (.ret a, s)
  | n + 1, .op i next, s => (next (answer i s).1).execN answer n (answer i s).2

theorem execN_reachable {sem : Sem ρ τ σ} {t : τ} {answer : (i : ι) → σ → ρ i × σ}
    (h : ∀ i s, sem t i s (answer i s).1 (answer i s).2) (n : Nat) (p : Pool ρ τ σ α) :
    ReachableBy sem t p ⟨((p.prog t).execN answer n p.shared).2,
      Function.update p.prog t ((p.prog t).execN answer n p.shared).1⟩ := by
  have hstay : ∀ q : Pool ρ τ σ α, ReachableBy sem t q
      ⟨q.shared, Function.update q.prog t (q.prog t)⟩ := by
    intro q
    rw [Function.update_eq_self]
    exact Relation.ReflTransGen.refl
  induction n generalizing p with
  | zero => exact hstay p
  | succ n ih =>
    obtain ⟨s, prog⟩ := p
    cases hx : prog t with
    | ret a =>
      have hrest := hstay ⟨s, prog⟩
      simp only [hx] at hrest ⊢
      exact hrest
    | op i next =>
      have hstep : StepBy sem t (⟨s, prog⟩ : Pool ρ τ σ α)
          ⟨(answer i s).2, Function.update prog t (next (answer i s).1)⟩ :=
        StepBy.op hx (h i s)
      have hrest := ih ⟨(answer i s).2, Function.update prog t (next (answer i s).1)⟩
      simp only [Function.update_self, Function.update_idem] at hrest
      simp only [hx]
      exact Relation.ReflTransGen.head hstep hrest

end Runs

/-! ### Running alone -/

namespace Prog

variable {sem : Sem ρ τ σ} {t : τ}

/-- Whatever the operations answer, `Q` holds of the result and of the state when the program
returns, no other thread taking a step meanwhile. -/
def Alone (sem : Sem ρ τ σ) (t : τ) : Prog ρ α → (α → σ → Prop) → σ → Prop
  | .ret a, Q, s => Q a s
  | .op i next, Q, s => ∀ r s', sem t i s r s' → (next r).Alone sem t Q s'

theorem Alone.mono {x : Prog ρ α} {Q Q' : α → σ → Prop} {s : σ} (h : x.Alone sem t Q s)
    (hQ : ∀ a s', Q a s' → Q' a s') : x.Alone sem t Q' s := by
  induction x generalizing s with
  | ret a => exact hQ a s h
  | op i next ih => exact fun r s' hsem => ih r (h r s' hsem)

theorem Alone.bind {x : Prog ρ α} {f : α → Prog ρ β} {Q : α → σ → Prop} {R : β → σ → Prop}
    {s : σ} (hx : x.Alone sem t Q s) (hf : ∀ a s', Q a s' → (f a).Alone sem t R s') :
    (x >>= f).Alone sem t R s := by
  induction x generalizing s with
  | ret a => exact hf a s hx
  | op i next ih => exact fun r s' hsem => ih r (hx r s' hsem)

theorem Alone.and {x : Prog ρ α} {Q Q' : α → σ → Prop} {s : σ} (h : x.Alone sem t Q s)
    (h' : x.Alone sem t Q' s) : x.Alone sem t (fun a s' => Q a s' ∧ Q' a s') s := by
  induction x generalizing s with
  | ret a => exact ⟨h, h'⟩
  | op i next ih => exact fun r s' hsem => ih r (h r s' hsem) (h' r s' hsem)

/-- One operation, and what goes on with its answer. -/
theorem Alone.perform {i : ι} {f : ρ i → Prog ρ β} {Q : β → σ → Prop} {s : σ}
    (h : ∀ r s', sem t i s r s' → (f r).Alone sem t Q s') :
    ((Prog.perform i : Prog ρ (ρ i)) >>= f).Alone sem t Q s := h

/-- In particular it holds where the operations are answered by `answer`. -/
theorem Alone.exec {x : Prog ρ α} {Q : α → σ → Prop} {s : σ} (h : x.Alone sem t Q s)
    {answer : (i : ι) → σ → ρ i × σ} (hanswer : ∀ i s, sem t i s (answer i s).1 (answer i s).2) :
    Q (x.exec answer s).1 (x.exec answer s).2 := by
  induction x generalizing s with
  | ret a => exact h
  | op i next ih => exact ih _ (h _ _ (hanswer i s))

/-- What was shown of a program that runs alone holds when it has returned. -/
theorem Alone.returned [DecidableEq τ] {Q : α → σ → Prop} {p p' : Pool ρ τ σ α} {a : α}
    (h : (p.prog t).Alone sem t Q p.shared) (hrun : ReachableBy sem t p p')
    (hreturned : p'.prog t = .ret a) : Q a p'.shared := by
  have hall : (p'.prog t).Alone sem t Q p'.shared := by
    clear hreturned
    induction hrun with
    | refl => exact h
    | @tail p₁ p₂ _ hstep ih =>
      cases hstep with
      | @op i next r s' hprog hsem =>
        rw [hprog] at ih
        show (Function.update p₁.prog t (next r) t).Alone sem t Q s'
        rw [Function.update_self]
        exact ih r s' hsem
  rw [hreturned] at hall
  exact hall

end Prog

/-! ### What a program does, whatever the state -/

namespace Prog

variable {ε : Type} {effect : (i : ι) → ρ i → List ε}

/-- Whatever its operations answer, the program returns an `a` after effects `l` that satisfy
`Q a l`, where performing `i` with answer `r` has the effects `effect i r`. -/
def Does (effect : (i : ι) → ρ i → List ε) : Prog ρ α → (α → List ε → Prop) → Prop
  | .ret a, Q => Q a []
  | .op i next, Q => ∀ r, (next r).Does effect fun a l => Q a (effect i r ++ l)

theorem Does.mono {x : Prog ρ α} {Q Q' : α → List ε → Prop} (h : x.Does effect Q)
    (hQ : ∀ a l, Q a l → Q' a l) : x.Does effect Q' := by
  induction x generalizing Q Q' with
  | ret a => exact hQ a [] h
  | op i next ih => exact fun r => ih r (h r) fun a l => hQ a (effect i r ++ l)

theorem Does.bind {x : Prog ρ α} {f : α → Prog ρ β} {R : β → List ε → Prop}
    (h : x.Does effect fun a l => (f a).Does effect fun b l' => R b (l ++ l')) :
    (x >>= f).Does effect R := by
  induction x generalizing R with
  | ret a => exact h
  | op i next ih =>
    refine fun r => ih r ((h r).mono fun a l hf => hf.mono fun b l' hR => ?_)
    rw [← List.append_assoc]
    exact hR

theorem Does.perform (i : ι) : (Prog.perform i : Prog ρ (ρ i)).Does effect
    fun r l => l = effect i r := fun _ => List.append_nil _

/-- Effects that come first. -/
theorem Does.bind_of {x : Prog ρ α} {f : α → Prog ρ β} {P : α → List ε → Prop}
    {R : β → List ε → Prop} (hx : x.Does effect P)
    (hf : ∀ a l, P a l → (f a).Does effect fun b l' => R b (l ++ l')) :
    (x >>= f).Does effect R := (hx.mono hf).bind

/-- A program without effects in front of another. -/
theorem Does.after_silent {x : Prog ρ α} {f : α → Prog ρ β} {R : β → List ε → Prop}
    (hx : x.Does effect fun _ l => l = []) (hf : ∀ a, (f a).Does effect R) :
    (x >>= f).Does effect R := by
  refine hx.bind_of fun a l hl => ?_
  subst hl
  exact hf a

/-- The program performs operations of one kind only, whatever they answer. -/
def Only (P : ι → Prop) : Prog ρ α → Prop
  | .ret _ => True
  | .op i next => P i ∧ ∀ r, (next r).Only P

theorem Only.bind {P : ι → Prop} {x : Prog ρ α} {f : α → Prog ρ β} (hx : x.Only P)
    (hf : ∀ a, (f a).Only P) : (x >>= f).Only P := by
  induction x with
  | ret a => exact hf a
  | op i next ih => exact ⟨hx.1, fun r => ih r (hx.2 r)⟩

theorem Only.perform {P : ι → Prop} {i : ι} (h : P i) : (Prog.perform i : Prog ρ (ρ i)).Only P :=
  ⟨h, fun _ => trivial⟩

/-- Operations without effects leave a program without. -/
theorem Only.silent {P : ι → Prop} {x : Prog ρ α} (h : x.Only P)
    (hP : ∀ i, P i → ∀ r, effect i r = []) : x.Does effect fun _ l => l = [] := by
  induction x with
  | ret a => exact rfl
  | op i next ih =>
    refine fun r => (ih r (h.2 r)).mono fun a l hl => ?_
    rw [hP i h.1 r, hl]
    rfl

/-- Where every operation can be answered, a program has some run. -/
theorem Does.exists_run {x : Prog ρ α} {Q : α → List ε → Prop} (h : x.Does effect Q)
    (hanswer : ∀ i, Nonempty (ρ i)) : ∃ a l, Q a l := by
  induction x generalizing Q with
  | ret a => exact ⟨a, [], h⟩
  | op i next ih =>
    obtain ⟨r⟩ := hanswer i
    obtain ⟨a, l, hQ⟩ := ih r (h r)
    exact ⟨a, effect i r ++ l, hQ⟩

/-- **A thread's record of effects**: if every step adds its effects to that of the thread that
makes it, what the programs do is what the records end up with. -/
theorem Does.reachable [DecidableEq τ] {sem : Sem ρ τ σ} {effect : τ → (i : ι) → ρ i → List ε}
    (record : σ → τ → List ε) {Q : τ → α → List ε → Prop}
    (hsem : ∀ t i s r s', sem t i s r s' → record s' t = record s t ++ effect t i r ∧
      ∀ t', t' ≠ t → record s' t' = record s t') {p p' : Pool ρ τ σ α}
    (h : ∀ t, (p.prog t).Does (effect t) fun a l => Q t a (record p.shared t ++ l))
    (hreach : Reachable sem p p') (t : τ) :
    (p'.prog t).Does (effect t) fun a l => Q t a (record p'.shared t ++ l) := by
  induction hreach with
  | refl => exact h t
  | tail _ hstep ih =>
    obtain ⟨t₀, hby⟩ := hstep
    cases hby with
    | @op i next r s' hprog hsem' =>
      rename_i p₁ _
      obtain ⟨hown, hothers⟩ := hsem t₀ i p₁.shared r s' hsem'
      show (Function.update p₁.prog t₀ (next r) t).Does (effect t)
        fun a l => Q t a (record s' t ++ l)
      by_cases heq : t = t₀
      · subst heq
        rw [hprog] at ih
        rw [Function.update_self, hown]
        refine (ih r).mono fun a l hQ => ?_
        rw [List.append_assoc]
        exact hQ
      · rw [Function.update_of_ne heq, hothers t heq]
        exact ih

end Prog

/-- Every thread has returned. -/
def Pool.Finished (p : Pool ρ τ σ α) : Prop := ∀ t, ∃ a, p.prog t = .ret a

/-! ### Rely and guarantee -/

/-- An invariant of the shared state and, for each thread, what it relies on. -/
structure Spec (τ σ : Type) where
  inv : σ → Prop
  env : τ → σ → σ → Prop
  env_refl : ∀ t s, env t s s
  env_trans : ∀ t s₁ s₂ s₃, env t s₁ s₂ → env t s₂ s₃ → env t s₁ s₃

namespace Spec

variable (S : Spec τ σ) (sem : Sem ρ τ σ)

/-- What a step of `t` owes the other threads. -/
def guar (t : τ) (s s' : σ) : Prop := ∀ t', t' ≠ t → S.env t' s s'

/-- An assertion no other thread can invalidate. -/
def Stable (t : τ) (P : σ → Prop) : Prop := ∀ s s', S.env t s s' → P s → P s'

/-- The weakest precondition: whatever the others do before each operation, the
operation keeps the invariant and the guarantee, and the postcondition holds in the
end. -/
def wp (t : τ) : Prog ρ α → (α → σ → Prop) → σ → Prop
  | .ret a, Q, s => Q a s
  | .op i next, Q, s => ∀ s₁, S.env t s s₁ → S.inv s₁ → ∀ r s₂, sem t i s₁ r s₂ →
      S.inv s₂ ∧ S.guar t s₁ s₂ ∧ wp t (next r) Q s₂

theorem wp_mono {t : τ} {x : Prog ρ α} {Q Q' : α → σ → Prop} {s : σ}
    (h : S.wp sem t x Q s) (hQ : ∀ a s, Q a s → Q' a s) : S.wp sem t x Q' s := by
  induction x generalizing s with
  | ret a => exact hQ a s h
  | op i next ih =>
    intro s₁ henv hinv r s₂ hsem
    obtain ⟨hinv₂, hguar, hrest⟩ := h s₁ henv hinv r s₂ hsem
    exact ⟨hinv₂, hguar, ih r hrest⟩

theorem wp_bind {t : τ} {x : Prog ρ α} {f : α → Prog ρ β} {Q : β → σ → Prop} {s : σ}
    (h : S.wp sem t x (fun a => S.wp sem t (f a) Q) s) : S.wp sem t (x >>= f) Q s := by
  induction x generalizing s with
  | ret a => exact h
  | op i next ih =>
    intro s₁ henv hinv r s₂ hsem
    obtain ⟨hinv₂, hguar, hrest⟩ := h s₁ henv hinv r s₂ hsem
    exact ⟨hinv₂, hguar, ih r hrest⟩

/-- A weakest precondition is itself stable, if the postcondition is. -/
theorem wp_stable {t : τ} {x : Prog ρ α} {Q : α → σ → Prop} (hQ : ∀ a, S.Stable t (Q a)) :
    S.Stable t (S.wp sem t x Q) := by
  intro s s' henv h
  cases x with
  | ret a => exact hQ a s s' henv h
  | op i next =>
    intro s₁ henv₁ hinv r s₂ hsem
    exact h s₁ (S.env_trans t s s' s₁ henv henv₁) hinv r s₂ hsem

/-- A fact that neither the program's own steps nor the others' can undo is still there in
the end. -/
theorem wp_frame {t : τ} {x : Prog ρ α} {Q : α → σ → Prop} {F : σ → Prop} {s : σ}
    (henv : S.Stable t F) (hstep : ∀ i s r s', sem t i s r s' → F s → F s')
    (h : S.wp sem t x Q s) (hF : F s) : S.wp sem t x (fun a s' => Q a s' ∧ F s') s := by
  induction x generalizing s with
  | ret a => exact ⟨h, hF⟩
  | op i next ih =>
    intro s₁ henv₁ hinv r s₂ hsem
    obtain ⟨hinv₂, hguar, hrest⟩ := h s₁ henv₁ hinv r s₂ hsem
    exact ⟨hinv₂, hguar, ih r hrest (hstep i s₁ r s₂ hsem (henv s s₁ henv₁ hF))⟩

/-- From every state of the invariant that satisfies `P`, the program meets `Q`. -/
def Triple (t : τ) (P : σ → Prop) (x : Prog ρ α) (Q : α → σ → Prop) : Prop :=
  ∀ s, S.inv s → P s → S.wp sem t x (fun a s' => S.inv s' ∧ Q a s') s

namespace Triple

variable {S sem} {t : τ} {P P' : σ → Prop} {Q Q' : α → σ → Prop} {R : β → σ → Prop}

theorem pure {a : α} (h : ∀ s, S.inv s → P s → Q a s) : S.Triple sem t P (pure a) Q :=
  fun s hinv hP => ⟨hinv, h s hinv hP⟩

theorem bind {x : Prog ρ α} {f : α → Prog ρ β} (hx : S.Triple sem t P x Q)
    (hf : ∀ a, S.Triple sem t (Q a) (f a) R) : S.Triple sem t P (x >>= f) R := by
  intro s hinv hP
  refine S.wp_bind sem (S.wp_mono sem (hx s hinv hP) ?_)
  rintro a s' ⟨hinv', hQ⟩
  exact hf a s' hinv' hQ

/-- Steps taken together. -/
theorem assoc {γ : Type} {x : Prog ρ α} {f : α → Prog ρ β} {g : β → Prog ρ γ}
    {Q : γ → σ → Prop} (h : S.Triple sem t P (x >>= f >>= g) Q) :
    S.Triple sem t P (x >>= fun a => f a >>= g) Q := by
  rw [← Prog.bind_assoc]
  exact h

theorem conseq {x : Prog ρ α} (hx : S.Triple sem t P' x Q')
    (hP : ∀ s, S.inv s → P s → P' s) (hQ : ∀ a s, S.inv s → Q' a s → Q a s) :
    S.Triple sem t P x Q := by
  intro s hinv h
  refine S.wp_mono sem (hx s hinv (hP s hinv h)) ?_
  rintro a s' ⟨hinv', hQ'⟩
  exact ⟨hinv', hQ a s' hinv' hQ'⟩

/-- One operation: its precondition must survive the others, and its effect has to keep
the invariant and the guarantee. -/
theorem op {i : ι} {Q : ρ i → σ → Prop} (hstable : S.Stable t P)
    (h : ∀ s r s', S.inv s → P s → sem t i s r s' →
      S.inv s' ∧ S.guar t s s' ∧ Q r s') : S.Triple sem t P (Prog.perform i) Q := by
  intro s hinv hP s₁ henv hinv₁ r s₂ hsem
  obtain ⟨hinv₂, hguar, hQ⟩ := h s₁ r s₂ hinv₁ (hstable s s₁ henv hP) hsem
  exact ⟨hinv₂, hguar, hinv₂, hQ⟩

/-- The frame rule. -/
theorem frame {x : Prog ρ α} {F : σ → Prop} (henv : S.Stable t F)
    (hstep : ∀ i s r s', sem t i s r s' → F s → F s') (hx : S.Triple sem t P x Q) :
    S.Triple sem t (fun s => P s ∧ F s) x fun a s => Q a s ∧ F s := by
  intro s hinv hP
  refine S.wp_mono sem (S.wp_frame sem henv hstep (hx s hinv hP.1) hP.2) ?_
  rintro a s' ⟨⟨hinv', hQ⟩, hF⟩
  exact ⟨hinv', hQ, hF⟩

/-- A fact about the precondition that does not speak of the state. -/
theorem of_pure {x : Prog ρ α} {φ : Prop} (h : φ → S.Triple sem t P x Q) :
    S.Triple sem t (fun s => φ ∧ P s) x Q :=
  fun s hinv hP => h hP.1 s hinv hP.2

theorem of_or {x : Prog ρ α} (h : S.Triple sem t P x Q) (h' : S.Triple sem t P' x Q) :
    S.Triple sem t (fun s => P s ∨ P' s) x Q := by
  rintro s hinv (hP | hP)
  · exact h s hinv hP
  · exact h' s hinv hP

theorem of_exists {γ : Type} {x : Prog ρ α} {P : γ → σ → Prop}
    (h : ∀ c, S.Triple sem t (P c) x Q) : S.Triple sem t (fun s => ∃ c, P c s) x Q :=
  fun s hinv ⟨c, hP⟩ => h c s hinv hP

/-! The same three in front of a frame. -/

theorem of_pure_frame {x : Prog ρ α} {φ : Prop} {F : σ → Prop}
    (h : φ → S.Triple sem t (fun s => P s ∧ F s) x Q) :
    S.Triple sem t (fun s => (φ ∧ P s) ∧ F s) x Q :=
  fun s hinv hP => h hP.1.1 s hinv ⟨hP.1.2, hP.2⟩

theorem of_exists_frame {γ : Type} {x : Prog ρ α} {P : γ → σ → Prop} {F : σ → Prop}
    (h : ∀ c, S.Triple sem t (fun s => P c s ∧ F s) x Q) :
    S.Triple sem t (fun s => (∃ c, P c s) ∧ F s) x Q :=
  fun s hinv ⟨⟨c, hP⟩, hF⟩ => h c s hinv ⟨hP, hF⟩

theorem of_or_frame {x : Prog ρ α} {F : σ → Prop}
    (h : S.Triple sem t (fun s => P s ∧ F s) x Q)
    (h' : S.Triple sem t (fun s => P' s ∧ F s) x Q) :
    S.Triple sem t (fun s => (P s ∨ P' s) ∧ F s) x Q := by
  rintro s hinv ⟨hP | hP, hF⟩
  · exact h s hinv ⟨hP, hF⟩
  · exact h' s hinv ⟨hP, hF⟩

end Triple

/-! ### Soundness -/

variable [DecidableEq τ] {S sem}

/-- One step keeps the invariant and every thread's weakest precondition. -/
theorem step {Q : τ → α → σ → Prop} (hQ : ∀ t a, S.Stable t (Q t a))
    {p p' : Pool ρ τ σ α} (hinv : S.inv p.shared)
    (hwp : ∀ t, S.wp sem t (p.prog t) (Q t) p.shared) (hstep : Step sem p p') :
    S.inv p'.shared ∧ ∀ t, S.wp sem t (p'.prog t) (Q t) p'.shared := by
  obtain ⟨t, hby⟩ := hstep
  cases hby with
  | @op i next r s' hprog hsem =>
    have ht := hwp t
    rw [hprog] at ht
    obtain ⟨hinv', hguar, hrest⟩ := ht _ (S.env_refl t _) hinv _ _ hsem
    refine ⟨hinv', fun t' => ?_⟩
    change S.wp sem t' (Function.update p.prog t (next r) t') (Q t') s'
    by_cases heq : t' = t
    · subst heq
      rw [Function.update_self]
      exact hrest
    · -- the other threads have only seen interference they allow
      rw [Function.update_of_ne heq]
      exact S.wp_stable sem (hQ t') _ _ (hguar t' heq) (hwp t')

/-- **Soundness.** What every thread's program establishes from the initial state holds
of every interleaving. -/
theorem reachable {P : τ → σ → Prop} {Q : τ → α → σ → Prop} (hQ : ∀ t a, S.Stable t (Q t a))
    {p p' : Pool ρ τ σ α} (hinv : S.inv p.shared) (hP : ∀ t, P t p.shared)
    (htriple : ∀ t, S.Triple sem t (P t) (p.prog t) (Q t)) (hreach : Reachable sem p p') :
    S.inv p'.shared ∧ ∀ t, S.wp sem t (p'.prog t) (Q t) p'.shared := by
  induction hreach with
  | refl =>
    refine ⟨hinv, fun t => ?_⟩
    exact S.wp_mono sem (htriple t p.shared hinv (hP t)) fun a s h => h.2
  | tail _ hstep ih => exact step hQ ih.1 ih.2 hstep

/-- Where all threads have returned, all postconditions hold. -/
theorem finished {P : τ → σ → Prop} {Q : τ → α → σ → Prop} (hQ : ∀ t a, S.Stable t (Q t a))
    {p p' : Pool ρ τ σ α} (hinv : S.inv p.shared) (hP : ∀ t, P t p.shared)
    (htriple : ∀ t, S.Triple sem t (P t) (p.prog t) (Q t)) (hreach : Reachable sem p p')
    (hfinished : p'.Finished) : S.inv p'.shared ∧ ∀ t, ∃ a, Q t a p'.shared := by
  obtain ⟨hinv', hwp⟩ := reachable hQ hinv hP htriple hreach
  refine ⟨hinv', fun t => ?_⟩
  obtain ⟨a, ha⟩ := hfinished t
  have ht := hwp t
  rw [ha] at ht
  exact ⟨a, ht⟩

/-- A thread that runs alone keeps the invariant and its weakest precondition. -/
theorem solo {t : τ} {Q : α → σ → Prop} {p p' : Pool ρ τ σ α} (hinv : S.inv p.shared)
    (hwp : S.wp sem t (p.prog t) Q p.shared) (hrun : ReachableBy sem t p p') :
    S.inv p'.shared ∧ S.wp sem t (p'.prog t) Q p'.shared := by
  induction hrun with
  | refl => exact ⟨hinv, hwp⟩
  | @tail p₁ p₂ _ hstep ih =>
    obtain ⟨hinv₁, hwp₁⟩ := ih
    cases hstep with
    | @op i next r s' hprog hsem =>
      rw [hprog] at hwp₁
      obtain ⟨hinv₂, -, hrest⟩ := hwp₁ _ (S.env_refl t _) hinv₁ _ _ hsem
      refine ⟨hinv₂, ?_⟩
      change S.wp sem t (Function.update p₁.prog t (next r) t) Q s'
      rw [Function.update_self]
      exact hrest

end Spec

end Interleaving
