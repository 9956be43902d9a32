import Sub0Log.Library.Interleaving

/-!
# Runs and their notes

A history variable beside the shared state: each step notes something about the operation it
performs, and no operation reads the notes. `noting` adds the variable to a semantics. Every run
has its notes (`exists_notes`) and is a run without them (`noting_reachable`), so what is said
of notes is said of runs.

**`Does.notes`** is what they are for: what a program does, whatever the state, is what its thread
has noted when it returns.
-/

namespace Interleaving

variable {ι : Type} {ρ : ι → Type} {τ σ α ε : Type}

/-- The semantics with its notes, each beside the thread whose step it is of. -/
def noting (note : (i : ι) → ρ i → List ε) (sem : Sem ρ τ σ) : Sem ρ τ (σ × List (τ × ε)) :=
  fun t i s r s' => sem t i s.1 r s'.1 ∧ s'.2 = s.2 ++ (note i r).map (Prod.mk t)

variable [DecidableEq τ] {note : (i : ι) → ρ i → List ε} {sem : Sem ρ τ σ}

/-- The notes of a thread. -/
def notesOf (t : τ) (notes : List (τ × ε)) : List ε :=
  (notes.filter fun e => e.1 = t).map Prod.snd

theorem notesOf_append (t : τ) (l l' : List (τ × ε)) :
    notesOf t (l ++ l') = notesOf t l ++ notesOf t l' := by
  unfold notesOf
  rw [List.filter_append, List.map_append]

theorem notesOf_self (t : τ) (l : List ε) : notesOf t (l.map (Prod.mk t)) = l := by
  have hall : (l.map (Prod.mk t)).filter (fun e => e.1 = t) = l.map (Prod.mk t) := by
    refine List.filter_eq_self.mpr fun e he => ?_
    obtain ⟨_, -, rfl⟩ := List.mem_map.mp he
    exact decide_eq_true rfl
  unfold notesOf
  rw [hall, List.map_map]
  exact List.map_id l

theorem notesOf_other {t t' : τ} (h : t' ≠ t) (l : List ε) :
    notesOf t' (l.map (Prod.mk t)) = [] := by
  refine List.map_eq_nil_iff.mpr (List.filter_eq_nil_iff.mpr fun e he => ?_)
  obtain ⟨_, -, rfl⟩ := List.mem_map.mp he
  exact fun heq => h (of_decide_eq_true heq).symm

/-- A run without its notes. -/
theorem noting_reachable {p p' : Pool ρ τ (σ × List (τ × ε)) α}
    (h : Reachable (noting note sem) p p') :
    Reachable sem ⟨p.shared.1, p.prog⟩ ⟨p'.shared.1, p'.prog⟩ := by
  induction h with
  | refl => exact Relation.ReflTransGen.refl
  | tail _ hstep ih =>
    obtain ⟨t, hby⟩ := hstep
    cases hby with
    | op hprog hsem => exact Relation.ReflTransGen.tail ih ⟨t, StepBy.op hprog hsem.1⟩

/-- Every run has notes. -/
theorem exists_notes {p p' : Pool ρ τ σ α} (h : Reachable sem p p') (before : List (τ × ε)) :
    ∃ notes, Reachable (noting note sem) ⟨(p.shared, before), p.prog⟩
      ⟨(p'.shared, notes), p'.prog⟩ := by
  induction h with
  | refl => exact ⟨before, Relation.ReflTransGen.refl⟩
  | tail _ hstep ih =>
    obtain ⟨notes, hrun⟩ := ih
    obtain ⟨t, hby⟩ := hstep
    cases hby with
    | @op i next r s' hprog hsem =>
      refine ⟨notes ++ (note i r).map (Prod.mk t), Relation.ReflTransGen.tail hrun ⟨t, ?_⟩⟩
      have hnoted : noting note sem t i (_, notes) r (s', notes ++ (note i r).map (Prod.mk t)) :=
        ⟨hsem, rfl⟩
      exact StepBy.op hprog hnoted

/-- An answer each operation may give, with its notes. -/
def noted (note : (i : ι) → ρ i → List ε) (answer : (i : ι) → σ → ρ i × σ) (t : τ) (i : ι)
    (s : σ × List (τ × ε)) : ρ i × (σ × List (τ × ε)) :=
  ((answer i s.1).1, (answer i s.1).2, s.2 ++ (note i (answer i s.1).1).map (Prod.mk t))

omit [DecidableEq τ] in
theorem noted_sem {t : τ} {answer : (i : ι) → σ → ρ i × σ}
    (h : ∀ i s, sem t i s (answer i s).1 (answer i s).2) (i : ι) (s : σ × List (τ × ε)) :
    noting note sem t i s (noted note answer t i s).1 (noted note answer t i s).2 :=
  ⟨h i s.1, rfl⟩

/-- What holds at first and is kept by every step, the notes growing, holds in every state. -/
theorem noting_invariant {P : σ → List (τ × ε) → Prop}
    (hstep : ∀ t i s r s' notes, sem t i s r s' → P s notes →
      P s' (notes ++ (note i r).map (Prod.mk t)))
    {p p' : Pool ρ τ (σ × List (τ × ε)) α} (hstart : P p.shared.1 p.shared.2)
    (hrun : Reachable (noting note sem) p p') : P p'.shared.1 p'.shared.2 := by
  induction hrun with
  | refl => exact hstart
  | tail _ h ih =>
    obtain ⟨t, hby⟩ := h
    cases hby with
    | @op i next r s' hprog hsem =>
      show P s'.1 s'.2
      rw [hsem.2]
      exact hstep t i _ r _ _ hsem.1 ih

/-- **What a thread has noted** when it has returned is what its program does. -/
theorem Prog.Does.notes {Q : τ → α → List ε → Prop} {s : σ} {prog : τ → Prog ρ α}
    (h : ∀ t, (prog t).Does note (Q t)) {p : Pool ρ τ (σ × List (τ × ε)) α}
    (hrun : Reachable (noting note sem) ⟨(s, []), prog⟩ p) {t : τ} {a : α}
    (hreturned : p.prog t = .ret a) : Q t a (notesOf t p.shared.2) := by
  have hstep : ∀ (t : τ) (i : ι) (s : σ × List (τ × ε)) (r : ρ i) (s' : σ × List (τ × ε)),
      noting note sem t i s r s' → notesOf t s'.2 = notesOf t s.2 ++ note i r ∧
        ∀ t', t' ≠ t → notesOf t' s'.2 = notesOf t' s.2 := by
    intro t i s r s' hsem
    rw [hsem.2]
    refine ⟨?_, fun t' hne => ?_⟩
    · rw [notesOf_append, notesOf_self]
    · rw [notesOf_append, notesOf_other hne, List.append_nil]
  have hdoes := Prog.Does.reachable (fun s t => notesOf t s.2) hstep (fun t => h t) hrun t
  rw [hreturned] at hdoes
  have hQ : Q t a (notesOf t p.shared.2 ++ []) := hdoes
  rwa [List.append_nil] at hQ

end Interleaving
