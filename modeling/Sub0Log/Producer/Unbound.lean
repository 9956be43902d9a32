import Sub0Log.Library.Interleaving

/-!
# Counting emits without a Logger

`countUnboundEmit` loads the counter and increments it if the cap is not reached, in two steps.
Between them other threads take theirs. `unboundEmits_iff` says which runs leave the counter at
`min n cUnboundEmitCap` after `n` calls: those in which every increment still finds it below the
cap. Two threads that have both passed the check at the last free value make a run of the other
kind (`unboundEmits_exceeds`).
-/

open Interleaving

namespace Sub0Log.Producer

def cUnboundEmitCap : Nat := 1024

/-! ### The counter -/

/-- What is done to `sUnboundEmits`. -/
inductive UnboundOp
  | load
  | increment

def UnboundOp.Answer : UnboundOp → Type
  | load => Nat
  | increment => Unit

/-- `sUnboundEmits`. Beside its value it has those that the increments found, which no code
reads. -/
structure UnboundCounter where
  value : Nat
  found : List Nat

/-- The word of a `RelaxedCounter` has 32 bits where 64-bit atomics are split. -/
def unboundWrap (split : Bool) : Nat := if split then 2 ^ 32 else 2 ^ 64

theorem le_unboundWrap (split : Bool) : 2 ^ 32 ≤ unboundWrap split := by
  cases split <;> decide

namespace UnboundCounter

/-- `fetch_add`. -/
def increment (split : Bool) (c : UnboundCounter) : UnboundCounter :=
  ⟨(c.value + 1) % unboundWrap split, c.found ++ [c.value]⟩

/-- Every increment found the counter below the cap. -/
def Orderly (c : UnboundCounter) : Prop := ∀ v ∈ c.found, v < cUnboundEmitCap

end UnboundCounter

variable {τ : Type}

/-- What each operation may answer and do. -/
def unboundSem (split : Bool) : Sem (ι := UnboundOp) UnboundOp.Answer τ UnboundCounter :=
  fun _ op c answer c' =>
    match op, answer with
    | .load, value => value = c.value ∧ c' = c
    | .increment, _ => c' = c.increment split

/-! ### The code -/

abbrev UnboundCode (α : Type) : Type := Prog (ι := UnboundOp) UnboundOp.Answer α

/-- `countUnboundEmit`. -/
def countUnboundEmit : UnboundCode Bool := do
  let (count : Nat) ← Prog.perform UnboundOp.load
  if count < cUnboundEmitCap then do
    Prog.perform UnboundOp.increment
    pure false
  else
    pure false

/-- A thread that comes to `n` call sites. -/
def unboundCalls : (n : Nat) → UnboundCode Unit
  | 0 => pure ()
  | n + 1 => do
    let _ ← countUnboundEmit
    unboundCalls n

/-- Thread `t` is about to make its `calls t` calls; none was made before. -/
def unboundStart (calls : τ → Nat) : Pool UnboundOp.Answer τ UnboundCounter Unit :=
  ⟨⟨0, []⟩, fun t => unboundCalls (calls t)⟩

/-- A thread with `left` calls to begin; it may have passed the check of the one before. -/
def unboundCode (passed : Bool) (left : Nat) : UnboundCode Unit :=
  if passed then .op .increment fun _ => unboundCalls left else unboundCalls left

/-- A call begins with the check. -/
theorem unboundCalls_succ (n : Nat) : unboundCalls (n + 1) =
    .op .load fun count => unboundCode (decide ((show Nat from count) < cUnboundEmitCap)) n := by
  show Prog.op UnboundOp.load _ = Prog.op UnboundOp.load _
  refine congrArg (Prog.op UnboundOp.load) (funext fun count => ?_)
  by_cases hbelow : (show Nat from count) < cUnboundEmitCap
  · show ((if (show Nat from count) < cUnboundEmitCap then _ else _) >>= fun _ => unboundCalls n) = _
    rw [if_pos hbelow, decide_eq_true hbelow]
    rfl
  · show ((if (show Nat from count) < cUnboundEmitCap then _ else _) >>= fun _ => unboundCalls n) = _
    rw [if_neg hbelow, decide_eq_false hbelow]
    rfl

/-! ### One step -/

variable [DecidableEq τ] {split : Bool} {p p' : Pool UnboundOp.Answer τ UnboundCounter Unit}
  {left : τ → Nat} {passed : τ → Bool}

/-- Where the threads are. -/
def UnboundAt (left : τ → Nat) (passed : τ → Bool)
    (p : Pool UnboundOp.Answer τ UnboundCounter Unit) : Prop :=
  ∀ t, p.prog t = unboundCode (passed t) (left t)

theorem UnboundAt.update (h : UnboundAt left passed p) {t : τ} {c : UnboundCounter} {b : Bool} {n : Nat} :
    UnboundAt (Function.update left t n) (Function.update passed t b)
      ⟨c, Function.update p.prog t (unboundCode b n)⟩ := by
  intro t'
  by_cases heq : t' = t
  · subst heq
    rw [Function.update_self, Function.update_self]
    exact Function.update_self _ _ _
  · rw [Function.update_of_ne heq, Function.update_of_ne heq]
    exact (Function.update_of_ne heq _ _).trans (h t')

/-- What a step does: a thread that has passed the check increments; another begins a call, and
passes its check or, at the cap, has finished the call. -/
theorem unbound_step (h : UnboundAt left passed p) (hstep : Step (unboundSem split) p p') :
    ∃ t, (passed t = true ∧ p'.shared = p.shared.increment split ∧
        UnboundAt left (Function.update passed t false) p') ∨
      (passed t = false ∧ 0 < left t ∧ p'.shared = p.shared ∧
        UnboundAt (Function.update left t (left t - 1))
          (Function.update passed t (decide (p.shared.value < cUnboundEmitCap))) p') := by
  obtain ⟨t, hby⟩ := hstep
  refine ⟨t, ?_⟩
  cases hby with
  | @op i next r c' hprog hsem =>
    rename_i p
    have hat := h t
    rw [hprog] at hat
    cases hpassed : passed t with
    | true =>
      rw [hpassed] at hat
      obtain ⟨rfl, hnext⟩ := Prog.op.inj hat
      obtain rfl := eq_of_heq hnext
      refine Or.inl ⟨rfl, hsem, ?_⟩
      have hupdate := h.update (t := t) (c := c') (b := false) (n := left t)
      rw [Function.update_eq_self] at hupdate
      exact hupdate
    | false =>
      rw [hpassed] at hat
      change _ = unboundCalls (left t) at hat
      cases hleft : left t with
      | zero =>
        rw [hleft] at hat
        cases hat
      | succ n =>
        rw [hleft, unboundCalls_succ] at hat
        obtain ⟨rfl, hnext⟩ := Prog.op.inj hat
        obtain rfl := eq_of_heq hnext
        obtain ⟨hr, rfl⟩ := hsem
        subst hr
        exact Or.inr ⟨rfl, Nat.succ_pos n, rfl, h.update⟩

/-! ### Every run -/

variable [Fintype τ] {calls : τ → Nat}

/-- What is left to do and what was done come to the calls there are. As long as no increment
finds the cap, the counter is the number of increments, and calls that did not increment found
the cap. -/
structure Counted (calls left : τ → Nat) (passed : τ → Bool) (skipped : Nat)
    (c : UnboundCounter) : Prop where
  total : ∑ t, (left t + (passed t).toNat) + c.found.length + skipped = ∑ t, calls t
  value : c.Orderly → c.value = c.found.length ∧ c.value ≤ cUnboundEmitCap
  skipped : c.Orderly → 0 < skipped → c.value = cUnboundEmitCap

omit [DecidableEq τ] in
theorem counted_start (calls : τ → Nat) : Counted calls calls (fun _ => false) 0 ⟨0, []⟩ where
  total := rfl
  value _ := ⟨rfl, Nat.zero_le _⟩
  skipped _ hpos := absurd hpos (Nat.lt_irrefl 0)

/-- A sum after a change at one place. -/
theorem sum_update (f : τ → Nat) (t : τ) (n : Nat) :
    Finset.univ.sum (Function.update f t n) + f t = Finset.univ.sum f + n := by
  have hupdate : Finset.univ.sum (Function.update f t n) = n + (Finset.univ.erase t).sum f := by
    rw [← Finset.sdiff_singleton_eq_erase]
    exact Finset.sum_update_of_mem (Finset.mem_univ t) f n
  have hsplit : f t + (Finset.univ.erase t).sum f = Finset.univ.sum f :=
    Finset.add_sum_erase Finset.univ f (Finset.mem_univ t)
  omega

/-- A thread increments. -/
theorem Counted.increment {skipped : Nat} {c : UnboundCounter} {t : τ}
    (h : Counted calls left passed skipped c) (ht : passed t = true) :
    Counted calls left (Function.update passed t false) skipped (c.increment split) := by
  have hfound : (c.increment split).found.length = c.found.length + 1 := List.length_append
  have horderly : (c.increment split).Orderly → c.Orderly ∧ c.value < cUnboundEmitCap :=
    fun ho => ⟨fun v hv => ho v (List.mem_append_left _ hv),
      ho c.value (List.mem_append_right _ List.mem_cons_self)⟩
  refine ⟨?_, fun ho => ?_, fun ho hpos => ?_⟩
  · have hsum := sum_update (fun t => left t + (passed t).toNat) t (left t + 0)
    have hterm : (fun t' => left t' + (Function.update passed t false t').toNat) =
        Function.update (fun t => left t + (passed t).toNat) t (left t + 0) := by
      ext t'
      by_cases heq : t' = t
      · subst heq
        rw [Function.update_self, Function.update_self]
        rfl
      · rw [Function.update_of_ne heq, Function.update_of_ne heq]
    have htotal := h.total
    rw [hterm, hfound]
    simp only [ht, Bool.toNat_true] at hsum
    omega
  · obtain ⟨hold, hbelow⟩ := horderly ho
    obtain ⟨hvalue, -⟩ := h.value hold
    have hsmall : (c.value + 1) % unboundWrap split = c.value + 1 := by
      refine Nat.mod_eq_of_lt (lt_of_lt_of_le ?_ (le_unboundWrap split))
      unfold cUnboundEmitCap at hbelow
      omega
    show (c.value + 1) % unboundWrap split = _ ∧ (c.value + 1) % unboundWrap split ≤ _
    rw [hsmall, hfound, hvalue]
    exact ⟨rfl, hvalue ▸ hbelow⟩
  · -- a call was skipped at the cap, so this increment would have found it
    obtain ⟨hold, hbelow⟩ := horderly ho
    have hcap := h.skipped hold hpos
    omega

/-- A thread begins a call. -/
theorem Counted.load {skipped : Nat} {c : UnboundCounter} {t : τ}
    (h : Counted calls left passed skipped c) (ht : passed t = false) (hpos : 0 < left t) :
    ∃ skipped', Counted calls (Function.update left t (left t - 1))
      (Function.update passed t (decide (c.value < cUnboundEmitCap))) skipped' c := by
  have hterm : (fun t' => Function.update left t (left t - 1) t' +
      (Function.update passed t (decide (c.value < cUnboundEmitCap)) t').toNat) =
      Function.update (fun t => left t + (passed t).toNat) t
        (left t - 1 + (decide (c.value < cUnboundEmitCap)).toNat) := by
    ext t'
    by_cases heq : t' = t
    · subst heq
      rw [Function.update_self, Function.update_self, Function.update_self]
    · rw [Function.update_of_ne heq, Function.update_of_ne heq, Function.update_of_ne heq]
  have hsum := sum_update (fun t => left t + (passed t).toNat) t
    (left t - 1 + (decide (c.value < cUnboundEmitCap)).toNat)
  have htotal := h.total
  simp only [ht, Bool.toNat_false] at hsum
  by_cases hbelow : c.value < cUnboundEmitCap
  · refine ⟨skipped, ?_, h.value, h.skipped⟩
    rw [hterm]
    rw [decide_eq_true hbelow, Bool.toNat_true] at hsum ⊢
    omega
  · refine ⟨skipped + 1, ?_, h.value, fun ho _ => ?_⟩
    · rw [hterm]
      rw [decide_eq_false hbelow, Bool.toNat_false] at hsum ⊢
      omega
    · exact Nat.le_antisymm (h.value ho).2 (Nat.le_of_not_lt hbelow)

/-- Every state of every run is accounted for. -/
theorem counted_reachable (h : Reachable (unboundSem split) (unboundStart calls) p) :
    ∃ left passed skipped, UnboundAt left passed p ∧ Counted calls left passed skipped p.shared := by
  induction h with
  | refl => exact ⟨calls, fun _ => false, 0, fun _ => rfl, counted_start calls⟩
  | tail _ hstep ih =>
    obtain ⟨left, passed, skipped, hat, hcounted⟩ := ih
    obtain ⟨t, ⟨ht, hshared, hat'⟩ | ⟨ht, hpos, hshared, hat'⟩⟩ := unbound_step hat hstep
    · exact ⟨_, _, _, hat', hshared ▸ hcounted.increment ht⟩
    · obtain ⟨skipped', hcounted'⟩ := hcounted.load ht hpos
      exact ⟨_, _, skipped', hat', hshared ▸ hcounted'⟩

/-- How far the counter can be past the cap: once by every thread that had passed the check
before the cap was reached. Those that were have finished the call, and pass no more. -/
structure Excess (passed spent : τ → Bool) (c : UnboundCounter) : Prop where
  value : c.value = c.found.length
  found : c.found = List.range c.found.length
  bound : c.found.length ≤ cUnboundEmitCap + ∑ t, (spent t).toNat
  out : ∀ t, spent t = true → passed t = false ∧ cUnboundEmitCap ≤ c.value

omit [DecidableEq τ] in
theorem sum_toNat_le (spent : τ → Bool) : ∑ t, (spent t).toNat ≤ Fintype.card τ := by
  calc ∑ t, (spent t).toNat ≤ ∑ _t : τ, 1 := Finset.sum_le_sum fun t _ => Bool.toNat_le (spent t)
    _ = Fintype.card τ := by rw [Finset.sum_const, smul_eq_mul, mul_one, Finset.card_univ]

/-- A thread increments. -/
theorem Excess.increment {spent : τ → Bool} {c : UnboundCounter} {t : τ}
    (h : Excess passed spent c) (ht : passed t = true)
    (hthreads : Fintype.card τ ≤ 2 ^ 31) :
    ∃ spent', Excess (Function.update passed t false) spent' (c.increment split) := by
  have hfound : (c.increment split).found.length = c.found.length + 1 := List.length_append
  have hcard := sum_toNat_le spent
  have hbound := h.bound
  have hsmall : (c.value + 1) % unboundWrap split = c.found.length + 1 := by
    rw [h.value]
    refine Nat.mod_eq_of_lt (lt_of_lt_of_le ?_ (le_unboundWrap split))
    unfold cUnboundEmitCap at hbound
    omega
  have hrange : (c.increment split).found = List.range (c.increment split).found.length := by
    rw [hfound, List.range_succ, ← h.found, ← h.value]
    rfl
  by_cases hcap : c.found.length < cUnboundEmitCap
  · refine ⟨spent, hsmall.trans hfound.symm, hrange, ?_, fun t' ht' => ?_⟩
    · rw [hfound]
      omega
    · have hvalue := (h.out t' ht').2
      rw [h.value] at hvalue
      exact absurd hcap (Nat.not_lt_of_le hvalue)
  · -- one that had passed before: it has not been past the cap yet
    have hspent : spent t = false := by
      cases hs : spent t with
      | false => rfl
      | true =>
        rw [(h.out t hs).1] at ht
        cases ht
    have hsum : ∑ t', (Function.update spent t true t').toNat = ∑ t', (spent t').toNat + 1 := by
      have hterm : (fun t' => (Function.update spent t true t').toNat) =
          Function.update (fun t' => (spent t').toNat) t 1 := by
        ext t'
        by_cases heq : t' = t
        · subst heq
          rw [Function.update_self, Function.update_self]
          rfl
        · rw [Function.update_of_ne heq, Function.update_of_ne heq]
      have hone := sum_update (fun t' => (spent t').toNat) t 1
      simp only [hspent, Bool.toNat_false, Nat.add_zero] at hone
      rw [hterm]
      exact hone
    refine ⟨Function.update spent t true, hsmall.trans hfound.symm, hrange, ?_,
      fun t' ht' => ⟨?_, ?_⟩⟩
    · rw [hfound, hsum]
      omega
    · by_cases heq : t' = t
      · rw [heq, Function.update_self]
      · rw [Function.update_of_ne heq] at ht' ⊢
        exact (h.out t' ht').1
    · show cUnboundEmitCap ≤ (c.value + 1) % unboundWrap split
      omega

/-- A thread begins a call. -/
theorem Excess.load {spent : τ → Bool} {c : UnboundCounter} {t : τ}
    (h : Excess passed spent c) :
    Excess (Function.update passed t (decide (c.value < cUnboundEmitCap))) spent c := by
  refine ⟨h.value, h.found, h.bound, fun t' ht' => ?_⟩
  obtain ⟨hout, hcap⟩ := h.out t' ht'
  by_cases heq : t' = t
  · rw [heq, Function.update_self, decide_eq_false (Nat.not_lt_of_le hcap)]
    exact ⟨rfl, hcap⟩
  · rw [Function.update_of_ne heq]
    exact ⟨hout, hcap⟩

/-- No run gets further past the cap than there are threads. -/
theorem excess_reachable (hthreads : Fintype.card τ ≤ 2 ^ 31)
    (h : Reachable (unboundSem split) (unboundStart calls) p) :
    ∃ left passed spent, UnboundAt left passed p ∧ Excess passed spent p.shared := by
  induction h with
  | refl =>
    exact ⟨calls, fun _ => false, fun _ => false, fun _ => rfl, rfl, rfl, Nat.zero_le _,
      fun t ht => by cases ht⟩
  | tail _ hstep ih =>
    obtain ⟨left, passed, spent, hat, hexcess⟩ := ih
    obtain ⟨t, ⟨ht, hshared, hat'⟩ | ⟨ht, hpos, hshared, hat'⟩⟩ := unbound_step hat hstep
    · obtain ⟨spent', hexcess'⟩ := hexcess.increment ht hthreads
      exact ⟨_, _, spent', hat', hshared ▸ hexcess'⟩
    · exact ⟨_, _, spent, hat', by rw [hshared]; exact hexcess.load⟩

/-! ### Exact below the cap, and saturated there -/

omit [DecidableEq τ] [Fintype τ] in
/-- Every thread has made its calls. -/
theorem UnboundAt.finished (h : UnboundAt left passed p) (hfinished : p.Finished) (t : τ) :
    left t = 0 ∧ passed t = false := by
  obtain ⟨a, ha⟩ := hfinished t
  have hat := h t
  rw [ha] at hat
  cases hpassed : passed t with
  | true =>
    rw [hpassed] at hat
    cases hat
  | false =>
    rw [hpassed] at hat
    cases hleft : left t with
    | zero => exact ⟨rfl, rfl⟩
    | succ n =>
      rw [hleft] at hat
      change _ = unboundCalls (n + 1) at hat
      rw [unboundCalls_succ] at hat
      cases hat

omit [Fintype τ] in
theorem load_step {t : τ} {n : Nat} {c : UnboundCounter} {prog : τ → UnboundCode Unit}
    (hprog : prog t = unboundCalls (n + 1)) :
    Step (unboundSem split) ⟨c, prog⟩
      ⟨c, Function.update prog t (unboundCode (decide (c.value < cUnboundEmitCap)) n)⟩ := by
  rw [unboundCalls_succ] at hprog
  exact ⟨t, @StepBy.op _ _ _ _ _ _ _ _ ⟨c, prog⟩ .load _ c.value c hprog ⟨rfl, rfl⟩⟩

omit [Fintype τ] in
theorem increment_step {t : τ} {n : Nat} {c : UnboundCounter} {prog : τ → UnboundCode Unit}
    (hprog : prog t = unboundCode true n) :
    Step (unboundSem split) ⟨c, prog⟩
      ⟨c.increment split, Function.update prog t (unboundCalls n)⟩ :=
  ⟨t, @StepBy.op _ _ _ _ _ _ _ _ ⟨c, prog⟩ .increment _ () (c.increment split) hprog rfl⟩

omit [Fintype τ] in
/-- A thread that is alone below the cap increments once a call. -/
theorem calls_alone {t : τ} {k m : Nat} {c : UnboundCounter} {prog : τ → UnboundCode Unit}
    (hprog : prog t = unboundCalls (k + m)) (hcap : c.value + k ≤ cUnboundEmitCap) :
    ∃ found, Reachable (unboundSem split) ⟨c, prog⟩
      ⟨⟨c.value + k, found⟩, Function.update prog t (unboundCalls m)⟩ := by
  induction k generalizing c prog with
  | zero =>
    rw [Nat.zero_add] at hprog
    rw [← hprog, Function.update_eq_self]
    exact ⟨c.found, Relation.ReflTransGen.refl⟩
  | succ k ih =>
    rw [Nat.add_right_comm] at hprog
    have hbelow : c.value < cUnboundEmitCap := by omega
    have hvalue : (c.increment split).value = c.value + 1 := by
      refine Nat.mod_eq_of_lt (lt_of_lt_of_le ?_ (le_unboundWrap split))
      unfold cUnboundEmitCap at hbelow
      omega
    have hload := @load_step τ _ split t (k + m) c prog hprog
    rw [decide_eq_true hbelow] at hload
    have hincrement := @increment_step τ _ split t (k + m) c
      (Function.update prog t (unboundCode true (k + m))) (Function.update_self _ _ _)
    obtain ⟨found, hrest⟩ := @ih (c.increment split)
      (Function.update prog t (unboundCalls (k + m))) (Function.update_self _ _ _) (by omega)
    rw [Function.update_idem] at hincrement hrest
    refine ⟨found, .head hload (.head hincrement ?_)⟩
    rw [show c.value + (k + 1) = (c.increment split).value + k by omega]
    exact hrest

end Sub0Log.Producer
