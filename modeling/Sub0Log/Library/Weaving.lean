import Sub0Log.Library.Noting

/-!
# Code that is run behind decisions

Threads over operations of two kinds, `ι` and `κ`, each on its own half of the state (`woven`).
A thread follows a `Script`: it asks operations of `κ`, and by their answers it plays pieces of
code over `ι`, or does not.

The scripts can also be run by themselves, a piece being one step that only notes it (`scripted`).
**`woven_returned`** makes of every run of their code two runs: one of the scripts by themselves,
and one over `ι` alone in which every thread runs, from the start, the pieces it has noted in the
first. So what is proved of all runs over `ι` holds behind any decisions.
-/

namespace Interleaving

variable {ι κ β : Type} {ρ : ι → Type} {ρ' : κ → Type} {τ σ γ α : Type}

/-! ### Two kinds of operations -/

/-- Operations of two kinds, each on its own half of the state. -/
def woven (sem : Sem ρ τ σ) (sem' : Sem ρ' τ γ) : Sem (Sum.elim ρ ρ') τ (σ × γ) :=
  fun t i s r s' =>
    match i, r with
    | .inl i, r => sem t i s.1 r s'.1 ∧ s'.2 = s.2
    | .inr k, r => sem' t k s.2 r s'.2 ∧ s'.1 = s.1

/-- Code of the first kind. -/
def Prog.left (ρ' : κ → Type) : Prog ρ α → Prog (Sum.elim ρ ρ') α
  | .ret a => .ret a
  | .op i next => .op (Sum.inl i) fun r => (next r).left ρ'

/-! ### Scripts -/

/-- What a thread is going to do: ask, and by the answer go on, or play a piece. -/
abbrev Script (ρ' : κ → Type) (β α : Type) : Type := Prog (Sum.elim ρ' fun _ : β => Unit) α

/-- Ask an operation. -/
def ask (k : κ) : Script ρ' β (ρ' k) := Prog.op (ρ := Sum.elim ρ' fun _ : β => Unit) (.inl k) .ret

/-- Play a piece. -/
def play (b : β) : Script ρ' β Unit :=
  Prog.op (ρ := Sum.elim ρ' fun _ : β => Unit) (.inr b) .ret

/-- The code of a script. -/
def Prog.played (code : β → Prog ρ Unit) : Script ρ' β α → Prog (Sum.elim ρ ρ') α
  | .ret a => .ret a
  | .op (.inl k) next => .op (.inr k) fun r => (next r).played code
  | .op (.inr b) next => (code b).left ρ' >>= fun _ => (next ()).played code

/-- What a thread has done by its script. -/
inductive Deed (ρ' : κ → Type) (β : Type) : Type
  | asked (k : κ) (answer : ρ' k)
  | played (b : β)

def Deed.piece? : Deed ρ' β → Option β
  | .asked _ _ => none
  | .played b => some b

def deed : (i : κ ⊕ β) → Sum.elim ρ' (fun _ : β => Unit) i → List (Deed ρ' β)
  | .inl k, answer => [.asked k answer]
  | .inr b, _ => [.played b]

/-- A piece that is played changes nothing. -/
def asking (β : Type) (sem' : Sem ρ' τ γ) : Sem (Sum.elim ρ' fun _ : β => Unit) τ γ :=
  fun t i s r s' =>
    match i, r with
    | .inl k, r => sem' t k s r s'
    | .inr _, _ => s' = s

/-- Scripts by themselves, with what is done noted. -/
abbrev scripted (β : Type) (sem' : Sem ρ' τ γ) :
    Sem (Sum.elim ρ' fun _ : β => Unit) τ (γ × List (τ × Deed ρ' β)) := noting deed (asking β sem')

/-- The pieces a thread has played. -/
def piecesOf [DecidableEq τ] (t : τ) (l : List (τ × Deed ρ' β)) : List β :=
  (notesOf t l).filterMap Deed.piece?

theorem piecesOf_concat [DecidableEq τ] (t t' : τ) (l : List (τ × Deed ρ' β)) (d : Deed ρ' β) :
    piecesOf t' (l ++ [(t, d)]) = piecesOf t' l ++ if t' = t then d.piece?.toList else [] := by
  unfold piecesOf
  rw [notesOf_append, List.filterMap_append]
  by_cases heq : t' = t
  · subst heq
    have hself : notesOf t' [(t', d)] = [d] := notesOf_self t' [d]
    rw [hself, if_pos rfl]
    cases d <;> rfl
  · have hother : notesOf t' [(t, d)] = [] := notesOf_other heq [d]
    rw [hother, if_neg heq]
    rfl

theorem piecesOf_asked [DecidableEq τ] (t t' : τ) (l : List (τ × Deed ρ' β)) (k : κ)
    (answer : ρ' k) : piecesOf t' (l ++ [(t, .asked k answer)]) = piecesOf t' l := by
  rw [piecesOf_concat]
  exact (congrArg _ (ite_self [])).trans (List.append_nil _)

/-- Pieces, one after another. -/
def playAll (code : β → Prog ρ Unit) : List β → Prog ρ Unit
  | [] => pure ()
  | b :: bs => do
    code b
    playAll code bs

theorem playAll_concat (code : β → Prog ρ Unit) (bs : List β) (b : β) :
    playAll code (bs ++ [b]) = (playAll code bs >>= fun _ => code b) := by
  induction bs with
  | nil =>
    show (code b >>= fun _ => Prog.ret ()) = code b
    exact Prog.bind_ret (code b)
  | cons c bs ih =>
    show (code c >>= fun _ => playAll code (bs ++ [b])) =
      ((code c >>= fun _ => playAll code bs) >>= fun _ => code b)
    rw [ih, Prog.bind_assoc]

/-! ### Runs apart -/

section Runs

variable [DecidableEq τ] {sem : Sem ρ τ σ} {sem' : Sem ρ' τ γ}

/-- A run goes the same way when the threads have more to do behind it. -/
theorem Reachable.before {p q : Pool ρ τ σ Unit} (h : Reachable sem p q)
    (k : τ → Unit → Prog ρ Unit) :
    Reachable sem ⟨p.shared, fun t => p.prog t >>= k t⟩ ⟨q.shared, fun t => q.prog t >>= k t⟩ := by
  induction h with
  | refl => exact Relation.ReflTransGen.refl
  | @tail q q' _ hstep ih =>
    refine Relation.ReflTransGen.tail ih ?_
    obtain ⟨t, hby⟩ := hstep
    cases hby with
    | @op i next r s' hprog hsem =>
      have hprog' : (q.prog t >>= k t) = .op i fun r => next r >>= k t := by
        rw [hprog]
        rfl
      have hby' := StepBy.op (p := ⟨q.shared, fun t => q.prog t >>= k t⟩) hprog' hsem
      have hupdate : (fun t' => Function.update q.prog t (next r) t' >>= k t') =
          Function.update (fun t' => q.prog t' >>= k t') t (next r >>= k t) := by
        funext t'
        by_cases heq : t' = t
        · subst heq
          rw [Function.update_self, Function.update_self]
        · rw [Function.update_of_ne heq, Function.update_of_ne heq]
      refine ⟨t, ?_⟩
      rw [hupdate]
      exact hby'

variable {code : β → Prog ρ Unit} {scripts : τ → Script ρ' β α}

/-- How a run over both kinds is two runs: the pieces `l` have been played, each thread's last one
being still under way, and `rest t` is to come. -/
structure Apart (sem : Sem ρ τ σ) (sem' : Sem ρ' τ γ) (code : β → Prog ρ Unit)
    (scripts : τ → Script ρ' β α) (s : σ) (g : γ) (p : Pool (Sum.elim ρ ρ') τ (σ × γ) α)
    (l : List (τ × Deed ρ' β)) (rest : τ → Script ρ' β α) (q : Pool ρ τ σ Unit) : Prop where
  asked : Reachable (scripted β sem') ⟨(g, []), scripts⟩ ⟨(p.shared.2, l), rest⟩
  played : Reachable sem ⟨s, fun t => playAll code (piecesOf t l)⟩ q
  shared : q.shared = p.shared.1
  prog : ∀ t, p.prog t = ((q.prog t).left ρ' >>= fun _ => (rest t).played code)

variable {s : σ} {g : γ} {p p' : Pool (Sum.elim ρ ρ') τ (σ × γ) α} {l : List (τ × Deed ρ' β)}
  {rest : τ → Script ρ' β α} {q : Pool ρ τ σ Unit}

/-- A thread between two pieces begins the next one. -/
theorem Apart.begin_piece (h : Apart sem sem' code scripts s g p l rest q) {t : τ} {b : β}
    {next : Unit → Script ρ' β α} (hprog : q.prog t = .ret ())
    (hrest : rest t = .op (.inr b) next) :
    ∃ q', Apart sem sem' code scripts s g p (l ++ [(t, .played b)])
        (Function.update rest t (next ())) q' ∧ ∀ t' ≠ t, q'.prog t' = q.prog t' := by
  -- the thread has one more piece behind the others, which have nothing
  let more : τ → Unit → Prog ρ Unit := Function.update (fun _ => .ret) t fun _ => code b
  have hmore : ∀ t' ≠ t, more t' = .ret := fun t' hne => Function.update_of_ne hne _ _
  have hmore' : more t = fun _ => code b := Function.update_self _ _ _
  have hplayed := h.played.before more
  have hstart : (fun t' => playAll code (piecesOf t' l) >>= more t') =
      fun t' => playAll code (piecesOf t' (l ++ [(t, .played b)])) := by
    funext t'
    rw [piecesOf_concat]
    by_cases heq : t' = t
    · subst heq
      rw [if_pos rfl, hmore']
      exact (playAll_concat code _ b).symm
    · rw [if_neg heq, List.append_nil, hmore t' heq, Prog.bind_ret]
  rw [hstart] at hplayed
  have hnoted : scripted β sem' t (.inr b) (p.shared.2, l) () (p.shared.2, l ++ [(t, .played b)]) :=
    ⟨rfl, rfl⟩
  have hby : StepBy (scripted β sem') t ⟨(p.shared.2, l), rest⟩
      ⟨(p.shared.2, l ++ [(t, .played b)]), Function.update rest t (next ())⟩ :=
    StepBy.op (p := ⟨(p.shared.2, l), rest⟩) (i := .inr b) (r := ()) hrest hnoted
  refine ⟨⟨q.shared, fun t' => q.prog t' >>= more t'⟩,
    ⟨Relation.ReflTransGen.tail h.asked ⟨t, hby⟩, hplayed, h.shared, fun t' => ?_⟩,
    fun t' hne => ?_⟩
  · show p.prog t' = ((q.prog t' >>= more t').left ρ' >>= fun _ => _)
    by_cases heq : t' = t
    · subst heq
      rw [h.prog t', hprog, hrest, hmore', Function.update_self]
      rfl
    · rw [h.prog t', hmore t' heq, Prog.bind_ret, Function.update_of_ne heq]
  · show (q.prog t' >>= more t') = q.prog t'
    rw [hmore t' hne, Prog.bind_ret]

/-- A thread is in a piece, or asks next, or is done. -/
theorem Apart.ready (h : Apart sem sem' code scripts s g p l rest q) (t : τ) :
    ∃ l' rest' q', Apart sem sem' code scripts s g p l' rest' q' ∧
      (∀ t' ≠ t, rest' t' = rest t' ∧ q'.prog t' = q.prog t') ∧
      ((∃ i next, q'.prog t = .op i next) ∨
        q'.prog t = .ret () ∧
          ((∃ a, rest' t = .ret a) ∨ ∃ k next, rest' t = .op (.inl k) next)) := by
  have hstay : ∀ t' ≠ t, rest t' = rest t' ∧ q.prog t' = q.prog t' := fun t' _ => ⟨rfl, rfl⟩
  induction hrest : rest t generalizing l rest q with
  | ret a =>
    cases hprog : q.prog t with
    | op i next => exact ⟨l, rest, q, h, hstay, Or.inl ⟨i, next, hprog⟩⟩
    | ret a' => exact ⟨l, rest, q, h, hstay, Or.inr ⟨hprog, Or.inl ⟨a, hrest⟩⟩⟩
  | op i next ih =>
    cases hprog : q.prog t with
    | op j next' => exact ⟨l, rest, q, h, hstay, Or.inl ⟨j, next', hprog⟩⟩
    | ret a =>
      cases i with
      | inl k => exact ⟨l, rest, q, h, hstay, Or.inr ⟨hprog, Or.inr ⟨k, next, hrest⟩⟩⟩
      | inr b =>
        obtain ⟨q₁, hq₁, hothers₁⟩ := h.begin_piece hprog hrest
        obtain ⟨l', rest', q', hq', hothers', hready⟩ :=
          ih () hq₁ (fun t' _ => ⟨rfl, rfl⟩) (Function.update_self _ _ _)
        refine ⟨l', rest', q', hq', fun t' hne => ?_, hready⟩
        obtain ⟨hrest', hprog'⟩ := hothers' t' hne
        exact ⟨hrest'.trans (Function.update_of_ne hne _ _), hprog'.trans (hothers₁ t' hne)⟩

/-- **A step** is one of a piece, or one question. -/
theorem Apart.step (h : Apart sem sem' code scripts s g p l rest q)
    (hstep : Step (woven sem sem') p p') :
    ∃ l' rest' q', Apart sem sem' code scripts s g p' l' rest' q' := by
  obtain ⟨t, hby⟩ := hstep
  obtain ⟨l, rest, q, h, -, hready⟩ := h.ready t
  cases hby with
  | @op i next r s' hprog hsem =>
    rw [h.prog t] at hprog
    rcases hready with ⟨i', next', hop⟩ | ⟨hret, ⟨a, hdone⟩ | ⟨k, next', hask⟩⟩
    · -- an operation of the piece under way
      rw [hop] at hprog
      obtain ⟨rfl, hnext⟩ := Prog.op.inj hprog
      obtain rfl := eq_of_heq hnext
      obtain ⟨hsem, hsame⟩ := hsem
      rw [← h.shared] at hsem
      refine ⟨l, rest, ⟨s'.1, Function.update q.prog t (next' r)⟩, ?_, ?_, rfl, fun t' => ?_⟩
      · show Reachable (scripted β sem') _ ⟨(s'.2, l), rest⟩
        rw [hsame]
        exact h.asked
      · exact Relation.ReflTransGen.tail h.played ⟨t, StepBy.op hop hsem⟩
      · show Function.update p.prog t _ t' =
          ((Function.update q.prog t (next' r) t').left ρ' >>= fun _ => (rest t').played code)
        by_cases heq : t' = t
        · subst heq
          rw [Function.update_self, Function.update_self]
          rfl
        · rw [Function.update_of_ne heq, Function.update_of_ne heq, h.prog t']
    · rw [hret, hdone] at hprog
      cases hprog
    · -- a question
      rw [hret, hask] at hprog
      obtain ⟨rfl, hnext⟩ := Prog.op.inj hprog
      obtain rfl := eq_of_heq hnext
      obtain ⟨hsem, hsame⟩ := hsem
      have hasked : scripted β sem' t (.inl k) (p.shared.2, l) r (s'.2, l ++ [(t, .asked k r)]) :=
        ⟨hsem, rfl⟩
      have hby : StepBy (scripted β sem') t ⟨(p.shared.2, l), rest⟩
          ⟨(s'.2, l ++ [(t, .asked k r)]), Function.update rest t (next' r)⟩ :=
        StepBy.op (p := ⟨(p.shared.2, l), rest⟩) (i := .inl k) (r := r) hask hasked
      have hpieces : ∀ t', piecesOf t' (l ++ [(t, .asked k r)]) = piecesOf t' l :=
        fun t' => piecesOf_asked t t' l k r
      refine ⟨l ++ [(t, .asked k r)], Function.update rest t (next' r), q,
        Relation.ReflTransGen.tail h.asked ⟨t, hby⟩, ?_, h.shared.trans hsame.symm, fun t' => ?_⟩
      · simp only [hpieces]
        exact h.played
      show Function.update p.prog t _ t' = _
      by_cases heq : t' = t
      · subst heq
        rw [Function.update_self, Function.update_self, hret]
        rfl
      · rw [Function.update_of_ne heq, Function.update_of_ne heq, h.prog t']

/-- **Every run is two runs.** -/
theorem woven_reachable
    (h : Reachable (woven sem sem') ⟨(s, g), fun t => (scripts t).played code⟩ p) :
    ∃ l rest q, Apart sem sem' code scripts s g p l rest q := by
  induction h with
  | refl =>
    exact ⟨[], scripts, ⟨s, fun _ => .ret ()⟩, Relation.ReflTransGen.refl,
      Relation.ReflTransGen.refl, rfl, fun t => rfl⟩
  | tail _ hstep ih =>
    obtain ⟨l, rest, q, hapart⟩ := ih
    exact hapart.step hstep

/-- Where a thread has returned, it has played all its pieces. -/
theorem Apart.returned (h : Apart sem sem' code scripts s g p l rest q) {t : τ} {a : α}
    (hreturned : p.prog t = .ret a) : ∃ l' rest' q', Apart sem sem' code scripts s g p l' rest' q' ∧
      (∀ t' ≠ t, rest' t' = rest t' ∧ q'.prog t' = q.prog t') ∧
      rest' t = .ret a ∧ q'.prog t = .ret () := by
  obtain ⟨l', rest', q', h', hothers, hready⟩ := h.ready t
  refine ⟨l', rest', q', h', hothers, ?_⟩
  rw [h'.prog t] at hreturned
  rcases hready with ⟨i, next, hop⟩ | ⟨hret, ⟨b, hdone⟩ | ⟨k, next, hask⟩⟩
  · rw [hop] at hreturned
    cases hreturned
  · rw [hret, hdone] at hreturned
    obtain rfl := Prog.ret.inj hreturned
    exact ⟨hdone, hret⟩
  · rw [hret, hask] at hreturned
    cases hreturned

/-- **Where threads have returned**, their scripts by themselves return the same, and the pieces
they have noted, run from the start, have returned. -/
theorem woven_returned
    (h : Reachable (woven sem sem') ⟨(s, g), fun t => (scripts t).played code⟩ p) (T : Finset τ)
    (hreturned : ∀ t ∈ T, ∃ a, p.prog t = .ret a) :
    ∃ l rest, ∃ q : Pool ρ τ σ Unit,
      Reachable (scripted β sem') ⟨(g, []), scripts⟩ ⟨(p.shared.2, l), rest⟩ ∧
      Reachable sem ⟨s, fun t => playAll code (piecesOf t l)⟩ q ∧ q.shared = p.shared.1 ∧
      ∀ t ∈ T, (∃ a, rest t = .ret a) ∧ q.prog t = .ret () := by
  suffices hall : ∃ l rest q, Apart sem sem' code scripts s g p l rest q ∧
      ∀ t ∈ T, (∃ a, rest t = .ret a) ∧ q.prog t = .ret () by
    obtain ⟨l, rest, q, hapart, hT⟩ := hall
    exact ⟨l, rest, q, hapart.asked, hapart.played, hapart.shared, hT⟩
  induction T using Finset.induction with
  | empty =>
    obtain ⟨l, rest, q, hapart⟩ := woven_reachable h
    exact ⟨l, rest, q, hapart, fun t ht => absurd ht (Finset.notMem_empty t)⟩
  | @insert t T ht ih =>
    obtain ⟨l, rest, q, hapart, hT⟩ := ih fun t' ht' => hreturned t' (Finset.mem_insert_of_mem ht')
    obtain ⟨a, ha⟩ := hreturned t (Finset.mem_insert_self t T)
    obtain ⟨l', rest', q', hapart', hothers, hdone, hret⟩ := hapart.returned ha
    refine ⟨l', rest', q', hapart', fun t' ht' => ?_⟩
    rcases Finset.mem_insert.mp ht' with rfl | hmem
    · exact ⟨⟨a, hdone⟩, hret⟩
    · have hne : t' ≠ t := fun heq => ht (heq ▸ hmem)
      rw [(hothers t' hne).1, (hothers t' hne).2]
      exact hT t' hmem

end Runs

end Interleaving
