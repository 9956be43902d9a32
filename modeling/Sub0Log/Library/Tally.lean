import Mathlib

/-!
# Sums by key

A list of events that have a key each, say the thread that caused them, and a weight. What two
weights come to is the same on the whole list when it is the same on the events of every key
(`sum_by_key`), and so on two lists (`sum_by_keys`); counting is the weight that is one or zero
(`countP_eq_sum`).
-/

namespace Tally

variable {α β : Type}

theorem countP_eq_sum (p : α → Bool) (l : List α) :
    l.countP p = (l.map fun a => (p a).toNat).sum := by
  induction l with
  | nil => rfl
  | cons a l ih =>
    rw [List.countP_cons, ih, List.map_cons, List.sum_cons, Nat.add_comm]
    cases p a <;> rfl

/-- A sum is what the kept and the others come to. -/
theorem sum_filter_add (w : α → ℕ) (p : α → Bool) (l : List α) :
    ((l.filter p).map w).sum + ((l.filter fun a => !p a).map w).sum = (l.map w).sum := by
  induction l with
  | nil => rfl
  | cons a l ih =>
    rw [List.map_cons, List.sum_cons, ← ih]
    cases hp : p a with
    | true =>
      rw [List.filter_cons_of_pos hp, List.filter_cons_of_neg (by rw [hp]; decide), List.map_cons,
        List.sum_cons, Nat.add_assoc]
    | false =>
      rw [List.filter_cons_of_neg (by rw [hp]; decide), List.filter_cons_of_pos (by rw [hp]; rfl),
        List.map_cons, List.sum_cons, Nat.add_left_comm]

/-- **Key by key.** -/
theorem sum_by_key [DecidableEq β] (key : α → β) {w w' : α → ℕ} (l : List α)
    (h : ∀ b, ((l.filter fun a => key a = b).map w).sum =
      ((l.filter fun a => key a = b).map w').sum) : (l.map w).sum = (l.map w').sum := by
  induction hn : l.length using Nat.strong_induction_on generalizing l with
  | _ n ih =>
    cases l with
    | nil => rfl
    | cons a l =>
      -- the events of the first key, and what is left without them
      let rest := (a :: l).filter fun x => !decide (key x = key a)
      have hshort : rest.length < n := by
        rw [← hn]
        exact List.length_filter_lt_length_iff_exists.mpr ⟨a, List.mem_cons_self, by simp⟩
      have hrest : (rest.map w).sum = (rest.map w').sum := by
        refine ih rest.length hshort rest (fun b => ?_) rfl
        by_cases hb : b = key a
        · have hnone : rest.filter (fun x => key x = b) = [] := by
            refine List.filter_eq_nil_iff.mpr fun x hx heq => ?_
            have hne := (List.mem_filter.mp hx).2
            rw [hb] at heq
            rw [heq] at hne
            cases hne
          rw [hnone]
          rfl
        · have hsame : rest.filter (fun x => key x = b) = (a :: l).filter fun x => key x = b := by
            rw [List.filter_filter]
            refine List.filter_congr fun x _ => ?_
            by_cases hx : key x = b
            · have hne : key x ≠ key a := fun heq => hb (hx.symm.trans heq)
              simp [hx, hb]
            · simp [hx]
          rw [hsame]
          exact h b
      rw [← sum_filter_add w fun x => key x = key a, ← sum_filter_add w' fun x => key x = key a,
        h (key a), hrest]

/-- The same of two lists. -/
theorem sum_by_keys {α' : Type} [DecidableEq β] (key : α → β) (key' : α' → β) {w : α → ℕ}
    {w' : α' → ℕ} (l : List α) (l' : List α')
    (h : ∀ b, ((l.filter fun a => key a = b).map w).sum =
      ((l'.filter fun a => key' a = b).map w').sum) : (l.map w).sum = (l'.map w').sum := by
  -- one list of both, where either weight is zero on the other's events
  let both : List (α ⊕ α') := l.map Sum.inl ++ l'.map Sum.inr
  have hleft : ∀ (m : List α) (m' : List α'),
      ((m.map Sum.inl ++ m'.map Sum.inr).map (Sum.elim w fun _ => 0)).sum = (m.map w).sum := by
    intro m m'
    rw [List.map_append, List.map_map, List.map_map, List.sum_append,
      show Sum.elim w (fun _ => 0) ∘ Sum.inr = fun _ : α' => 0 from rfl, List.map_const']
    simp [Function.comp_def]
  have hright : ∀ (m : List α) (m' : List α'),
      ((m.map Sum.inl ++ m'.map Sum.inr).map (Sum.elim (fun _ => 0) w')).sum = (m'.map w').sum := by
    intro m m'
    rw [List.map_append, List.map_map, List.map_map, List.sum_append,
      show Sum.elim (fun _ => 0) w' ∘ Sum.inl = fun _ : α => 0 from rfl, List.map_const']
    simp [Function.comp_def]
  have hfilter : ∀ b, both.filter (fun e => Sum.elim key key' e = b) =
      (l.filter fun a => key a = b).map Sum.inl ++ (l'.filter fun a => key' a = b).map Sum.inr := by
    intro b
    rw [List.filter_append, List.filter_map, List.filter_map]
    rfl
  have hboth : (both.map (Sum.elim w fun _ => 0)).sum = (both.map (Sum.elim (fun _ => 0) w')).sum :=
    sum_by_key (Sum.elim key key') both fun b => by rw [hfilter, hleft, hright, h b]
  rwa [hleft, hright] at hboth

end Tally
