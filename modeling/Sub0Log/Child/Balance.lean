import Sub0Log.Child.Effects
import Sub0Log.Child.Runs
import Sub0Log.Library.Tally

/-!
# Captured lines are accounted for

Every captured line is suppressed, unlogged, written or dropped, and each of these is counted.
The counters are what the trace says was counted (`counters_eq`); a thread that captures a child
has counted as many lines as it has given one of the four fates (`thread_tally`); so the same
holds of the whole trace, once all threads that capture the child have returned.

**`capture_balances`** puts this beside the splitting: what was handed on by a capturing thread
are the lines of its stream, whatever pieces `read` returned and whatever the interceptor did.
-/

open Interleaving

namespace Sub0Log.Child

open Wire Producer Abi

variable {κ γ τ : Type}

/-! ### Counting in the trace -/

section Counting

variable [DecidableEq γ]

/-- A counter of child `c` was incremented. -/
def isCounted (c : γ) (counter : CaptureCounter) : ChildEvent κ γ τ → Bool
  | .counted _ c' counter' _ => decide (c' = c ∧ counter' = counter)
  | .host _ | .shown _ _ _ _ | .record _ _ _ _ => false

/-- A line of child `c` was committed. -/
def isOutput (c : γ) : ChildEvent κ γ τ → Bool
  | .record _ c' _ (.output _) => decide (c' = c)
  | .record _ _ _ (.start _ _) | .record _ _ _ (.exit _) | .host _ | .shown _ _ _ _
  | .counted _ _ _ _ => false

/-- The thread captures child `c`. -/
def captures (c : γ) : ChildThread κ γ → Bool
  | .capture c' _ _ => decide (c' = c)
  | .calls _ => false

/-- A line of child `c` was dropped: a thread that captures it counted a drop. -/
def isDrop (threads : τ → ChildThread κ γ) (c : γ) : ChildEvent κ γ τ → Bool
  | .host (.logged _ (.dropped t _)) => captures c (threads t)
  | .host _ | .record _ _ _ _ | .shown _ _ _ _ | .counted _ _ _ _ => false

/-- A line of child `c` that was cut was handed on. -/
def isCut (c : γ) : ChildEvent κ γ τ → Bool
  | .counted _ c' .capturedLines line => decide (c' = c) && line.truncated
  | .counted _ _ .suppressedLines _ | .counted _ _ .unloggedLines _
  | .counted _ _ .truncatedLines _ | .host _ | .record _ _ _ _ | .shown _ _ _ _ => false

/-- The line of child `c` that thread `t` handed on. -/
def handedLine [DecidableEq τ] (c : γ) (t : τ) : ChildEvent κ γ τ → Option ChildLine
  | .counted t' c' .capturedLines line => if t' = t ∧ c' = c then some line else none
  | .counted _ _ .suppressedLines _ | .counted _ _ .unloggedLines _
  | .counted _ _ .truncatedLines _ | .host _ | .record _ _ _ _ | .shown _ _ _ _ => none

/-- What a captured line counts for, and what the fate of one does. -/
def fates (threads : τ → ChildThread κ γ) (c : γ) (e : ChildEvent κ γ τ) : ℕ :=
  (isCounted c .suppressedLines e).toNat + (isCounted c .unloggedLines e).toNat +
    (isOutput c e).toNat + (isDrop threads c e).toNat

end Counting

/-- The lines of child `c` that thread `t` handed to `writeChildOutputLine`. -/
def ChildState.handed [DecidableEq γ] [DecidableEq τ] (s : ChildState κ γ τ) (c : γ) (t : τ) :
    List ChildLine := s.trace.filterMap (handedLine c t)

/-! ### One line -/

section Line

variable [DecidableEq γ] {children : γ → ChildCaptureState κ} {t : τ} {c : γ} {line : ChildLine}
  {row : List (ChildEvent κ γ τ)}

omit [DecidableEq γ] in
theorem sum_asked {action : InterceptAction} {asked : List (ChildEvent κ γ τ)}
    (h : Asked children t c line action asked) {w : ChildEvent κ γ τ → ℕ}
    (hw : ∀ found, w (.shown t c line found) = 0) : (asked.map w).sum = 0 := by
  cases h with
  | empty => rfl
  | shown _ found => exact (Nat.add_zero _).trans (hw found)

omit [DecidableEq γ] in
theorem sum_cutLine {w : ChildEvent κ γ τ → ℕ} :
    ((cutLineEvents t c line).map w).sum =
      if line.truncated then w (.counted t c .truncatedLines line) else 0 := by
  unfold cutLineEvents
  split <;> rfl

omit [DecidableEq γ] in
/-- What a weight comes to on a line that does not weigh what is shown. -/
theorem sum_row (h : LineEffects children t c line row) {w : ChildEvent κ γ τ → ℕ}
    (hw : ∀ found, w (.shown t c line found) = 0) :
    ∃ action fate, Fate children t c line action fate ∧ (row.map w).sum =
      w (.counted t c .capturedLines line) +
        ((if line.truncated then w (.counted t c .truncatedLines line) else 0) + w fate) := by
  obtain ⟨action, asked, fate, hasked, hfate, rfl⟩ := h
  refine ⟨action, fate, hfate, ?_⟩
  rw [List.map_cons, List.sum_cons, List.map_append, List.sum_append, List.map_append,
    List.sum_append, sum_asked hasked hw, sum_cutLine, Nat.zero_add]
  rfl

/-- A line has one fate. -/
theorem fates_of_fate {threads : τ → ChildThread κ γ} {action : InterceptAction}
    {fate : ChildEvent κ γ τ} (h : Fate children t c line action fate)
    (hcaptures : captures c (threads t) = true) : fates threads c fate = 1 := by
  cases h with
  | suppressed => simp [fates, isCounted, isOutput, isDrop]
  | unlogged => simp [fates, isCounted, isOutput, isDrop]
  | written => simp [fates, isCounted, isOutput, isDrop]
  | dropped => simp [fates, isCounted, isOutput, isDrop, hcaptures]

/-- **A line is counted once and has one fate**; it is counted as cut when it was. -/
theorem line_tally {threads : τ → ChildThread κ γ} (h : LineEffects children t c line row)
    (hcaptures : captures c (threads t) = true) :
    (row.map fun e => (isCounted c .capturedLines e).toNat).sum = 1 ∧
      (row.map (fates threads c)).sum = 1 ∧
      (row.map fun e => (isCounted c .truncatedLines e).toNat).sum =
        (row.map fun e => (isCut c e).toNat).sum := by
  refine ⟨?_, ?_, ?_⟩
  · obtain ⟨action, fate, hfate, hsum⟩ := sum_row h
      (w := fun e => (isCounted c .capturedLines e).toNat) fun _ => rfl
    rw [hsum]
    cases hfate <;> simp [isCounted]
  · obtain ⟨action, fate, hfate, hsum⟩ := sum_row h (w := fates threads c) fun _ => rfl
    rw [hsum, fates_of_fate hfate hcaptures]
    simp [fates, isCounted, isOutput, isDrop]
  · obtain ⟨action, fate, hfate, hsum⟩ := sum_row h
      (w := fun e => (isCounted c .truncatedLines e).toNat) fun _ => rfl
    obtain ⟨action', fate', hfate', hsum'⟩ := sum_row h (w := fun e => (isCut c e).toNat) fun _ => rfl
    rw [hsum, hsum']
    have hcounted : (isCounted c .truncatedLines fate).toNat = 0 := by cases hfate <;> simp [isCounted]
    have hcut : (isCut c fate').toNat = 0 := by cases hfate' <;> rfl
    rw [hcounted, hcut]
    cases hline : line.truncated <;> simp [isCounted, isCut, hline]

theorem filterMap_handed_row [DecidableEq τ] (h : LineEffects children t c line row) :
    row.filterMap (handedLine c t) = [line] := by
  obtain ⟨action, asked, fate, hasked, hfate, rfl⟩ := h
  have hcut : (cutLineEvents t c line).filterMap (handedLine (κ := κ) c t) = [] := by
    unfold cutLineEvents
    split <;> rfl
  have hshown : asked.filterMap (handedLine c t) = [] := by cases hasked <;> rfl
  have hlast : [fate].filterMap (handedLine c t) = [] := by cases hfate <;> rfl
  have hfirst : handedLine (κ := κ) c t (.counted t c .capturedLines line) = some line :=
    if_pos ⟨rfl, rfl⟩
  rw [List.filterMap_cons_some hfirst, List.filterMap_append, List.filterMap_append, hcut, hshown,
    hlast]
  rfl

end Line

/-! ### Threads -/

section Threads

variable [DecidableEq γ] {children : γ → ChildCaptureState κ} {t : τ} {c : γ}

/-- All lines of a thread that captures `c`. -/
theorem lines_tally {threads : τ → ChildThread κ γ} {lines : List ChildLine}
    {rows : List (List (ChildEvent κ γ τ))} (h : List.Forall₂ (LineEffects children t c) lines rows)
    (hcaptures : captures c (threads t) = true) :
    (rows.flatten.map fun e => (isCounted c .capturedLines e).toNat).sum =
        (rows.flatten.map (fates threads c)).sum ∧
      (rows.flatten.map fun e => (isCounted c .truncatedLines e).toNat).sum =
        (rows.flatten.map fun e => (isCut c e).toNat).sum := by
  induction h with
  | nil => exact ⟨rfl, rfl⟩
  | cons hrow _ ih =>
    obtain ⟨hcaptured, hfates, hcut⟩ := line_tally hrow hcaptures
    simp only [List.flatten_cons, List.map_append, List.sum_append]
    exact ⟨by rw [hcaptured, hfates, ih.1], by rw [hcut, ih.2]⟩

theorem filterMap_handed [DecidableEq τ] {lines : List ChildLine}
    {rows : List (List (ChildEvent κ γ τ))} (h : List.Forall₂ (LineEffects children t c) lines rows) :
    rows.flatten.filterMap (handedLine c t) = lines := by
  induction h with
  | nil => rfl
  | cons hrow _ ih =>
    rw [List.flatten_cons, List.filterMap_append, filterMap_handed_row hrow, ih]
    rfl

/-- What is not about a line of `c` counts for nothing in its tallies. -/
theorem not_about {e : ChildEvent κ γ τ} (h : e.child? ≠ some c) :
    (∀ counter, isCounted c counter e = false) ∧ isOutput c e = false ∧ isCut c e = false := by
  cases e with
  | host | shown => exact ⟨fun _ => rfl, rfl, rfl⟩
  | counted t' c' counter line =>
    have hother : c' ≠ c := fun heq => h (congrArg some heq)
    refine ⟨fun _ => decide_eq_false fun hand => hother hand.1, rfl, ?_⟩
    cases counter with
    | capturedLines =>
      show (decide (c' = c) && line.truncated) = false
      rw [decide_eq_false hother, Bool.false_and]
    | suppressedLines | unloggedLines | truncatedLines => exact rfl
  | record t' c' k r =>
    cases r with
    | output line => exact ⟨fun _ => rfl, decide_eq_false fun heq => h (congrArg some heq), rfl⟩
    | start | exit => exact ⟨fun _ => rfl, rfl, rfl⟩

omit [DecidableEq γ] in
/-- The events of a line are about its child. -/
theorem child_of_row {line : ChildLine} {row : List (ChildEvent κ γ τ)}
    (h : LineEffects children t c line row) : ∀ e ∈ row, e.child? = none ∨ e.child? = some c := by
  obtain ⟨action, asked, fate, hasked, hfate, rfl⟩ := h
  intro e he
  simp only [List.mem_cons, List.mem_append, List.not_mem_nil, or_false] at he
  obtain rfl | he | he | rfl := he
  · exact Or.inr rfl
  · unfold cutLineEvents at he
    split at he
    · rw [List.mem_singleton.mp he]
      exact Or.inr rfl
    · exact absurd he List.not_mem_nil
  · cases hasked with
    | empty => exact absurd he List.not_mem_nil
    | shown =>
      rw [List.mem_singleton.mp he]
      exact Or.inr rfl
  · cases hfate with
    | dropped => exact Or.inl rfl
    | suppressed | unlogged | written => exact Or.inr rfl

/-- The events of a thread that captures another child, or none, are not about `c`. -/
theorem child_of_other {x : ChildThread κ γ} {l : List (ChildEvent κ γ τ)}
    (h : ThreadEffects children t x l) (hcaptures : captures c x = false) :
    ∀ e ∈ l, e.child? ≠ some c := by
  intro e he
  cases x with
  | calls calls =>
    rw [(show ∀ e ∈ l, ChildEvent.child? e = none from h) e he]
    exact fun heq => by cases heq
  | capture c' stream reads =>
    have hother : c' ≠ c := of_decide_eq_false hcaptures
    obtain ⟨rows, hrows, rfl⟩ := h
    obtain ⟨row, hrow, he⟩ := List.mem_flatten.mp he
    obtain ⟨i, hi, rfl⟩ := List.getElem_of_mem hrow
    have hline := (List.forall₂_iff_get.mp hrows).2 i (by rw [hrows.length_eq]; exact hi) hi
    rcases child_of_row hline e he with heq | heq <;> rw [heq]
    · exact fun heq => by cases heq
    · exact fun heq => hother (Option.some.inj heq)

end Threads

/-! ### The counters -/

section Counters

variable [DecidableEq κ] [DecidableEq γ] [DecidableEq τ] {lg : κ → Logger τ}
  {children : γ → ChildCaptureState κ}

/-- The counters say what the trace says was counted. -/
def CountersAgree (s : ChildState κ γ τ) : Prop :=
  ∀ c counter, s.counters c counter = UInt64.ofNat (s.trace.countP (isCounted c counter))

omit [DecidableEq κ] [DecidableEq τ] in
/-- Events that count nothing, the counters staying what they are. -/
theorem CountersAgree.of_trace {s s' : ChildState κ γ τ} (h : CountersAgree s)
    (hcounters : s'.counters = s.counters) {added : List (ChildEvent κ γ τ)}
    (htrace : s'.trace = s.trace ++ added) (hadded : ∀ e ∈ added, ∀ c counter,
      isCounted c counter e = false) : CountersAgree s' := by
  intro c counter
  have hnone : added.countP (isCounted c counter) = 0 :=
    List.countP_eq_zero.mpr fun e he => by simp [hadded e he c counter]
  rw [hcounters, htrace, List.countP_append, hnone, Nat.add_zero]
  exact h c counter

omit [DecidableEq κ] [DecidableEq τ] in
/-- An increment, and its event. -/
theorem CountersAgree.add {s : ChildState κ γ τ} (h : CountersAgree s) (t : τ) (c : γ)
    (counter : CaptureCounter) (line : ChildLine) :
    CountersAgree { s with
      counters := s.add c counter
      trace := s.trace ++ [.counted t c counter line] } := by
  intro c' counter'
  show s.add c counter c' counter' = UInt64.ofNat
    ((s.trace ++ [ChildEvent.counted t c counter line]).countP (isCounted c' counter'))
  rw [List.countP_append, UInt64.ofNat_add, ← h c' counter', List.countP_singleton]
  unfold ChildState.add
  by_cases hc : c' = c
  · subst hc
    rw [Function.update_self]
    by_cases hcounter : counter' = counter
    · subst hcounter
      have hsame : isCounted (κ := κ) c' counter' (.counted t c' counter' line) = true :=
        decide_eq_true ⟨rfl, rfl⟩
      rw [Function.update_self, if_pos hsame]
      rfl
    · rw [Function.update_of_ne hcounter,
        if_neg (by simp [isCounted, Ne.symm hcounter])]
      exact (UInt64.add_zero _).symm
  · rw [Function.update_of_ne hc, if_neg (by simp [isCounted, Ne.symm hc])]
    exact (UInt64.add_zero _).symm

theorem countersAgree_step {s s' : ChildState κ γ τ} {t : τ} {op : ChildOp κ γ} {r : op.Answer}
    (h : CountersAgree s) (hstep : sem lg children t op s r s') : CountersAgree s' := by
  have hhost : ∀ {op : HostOp κ} {r : op.Answer} {after : List (ChildEvent κ γ τ)},
      OnHost lg t op s r after s' → (∀ e ∈ after, ∀ c counter, isCounted c counter e = false) →
      CountersAgree s' := by
    rintro op r after ⟨v, new, -, -, rfl⟩ hafter
    refine h.of_trace rfl (List.append_assoc _ _ _) fun e he => ?_
    rcases List.mem_append.mp he with he | he
    · obtain ⟨e', -, rfl⟩ := List.mem_map.mp he
      exact fun _ _ => rfl
    · exact hafter e he
  cases op with
  | host op =>
    exact hhost (show OnHost lg t op s r [] s' from hstep) fun _ he => absurd he List.not_mem_nil
  | publish k op c rec =>
    refine hhost (show OnHost lg t (.logger k op) s r [.record t c k rec] s' from hstep) ?_
    intro e he
    rw [List.mem_singleton.mp he]
    exact fun _ _ => rfl
  | fetchAdd c counter line =>
    obtain rfl : s' = _ := hstep
    exact h.add t c counter line
  | onLine c line =>
    obtain rfl : s' = _ := hstep.2
    refine h.of_trace rfl rfl fun e he => ?_
    rw [List.mem_singleton.mp he]
    exact fun _ _ => rfl

/-- In every reachable state. -/
theorem counters_eq {p p' : Pool (ι := ChildOp κ γ) ChildOp.Answer τ (ChildState κ γ τ) Unit}
    (hstart : CountersAgree p.shared) (hrun : Reachable (sem lg children) p p') :
    CountersAgree p'.shared := by
  induction hrun with
  | refl => exact hstart
  | tail _ hstep ih =>
    obtain ⟨t, hby⟩ := hstep
    cases hby with
    | op hprog hsem => exact countersAgree_step ih hsem

end Counters

/-! ### The whole trace -/

section Trace

variable [DecidableEq κ] [DecidableEq γ] [DecidableEq τ] {lg : κ → Logger τ}
  {children : γ → ChildCaptureState κ} {threads : τ → ChildThread κ γ} {start : ChildState κ γ τ}
  {p : Pool (ι := ChildOp κ γ) ChildOp.Answer τ (ChildState κ γ τ) Unit} {c : γ}

omit [DecidableEq κ] [DecidableEq τ] in
/-- A claim counts for nothing. -/
theorem claim_weightless (threads : τ → ChildThread κ γ) {e : ChildEvent κ γ τ} (h : e.isClaim = true) :
    (∀ counter, isCounted c counter e = false) ∧ isCut c e = false ∧ fates threads c e = 0 := by
  cases e with
  | counted | shown | record => cases h
  | host e =>
    refine ⟨fun _ => rfl, rfl, ?_⟩
    cases e with
    | active | threshold | message => cases h
    | logged k e =>
      cases e with
      | claimed => rfl
      | committed | dropped | truncated => cases h

omit [DecidableEq κ] [DecidableEq γ] in
/-- The events of a thread weigh what it did. -/
theorem sum_thread (s : ChildState κ γ τ) (t : τ) {w : ChildEvent κ γ τ → ℕ}
    (hw : ∀ e, e.isClaim = true → w e = 0) :
    ((s.trace.filter fun e => e.thread = t).map w).sum = ((s.deeds t).map w).sum := by
  rw [← Tally.sum_filter_add w fun e => !e.isClaim]
  have hclaims : (((s.trace.filter fun e => e.thread = t).filter fun e => !!e.isClaim).map w).sum =
      0 := by
    refine List.sum_eq_zero fun n hn => ?_
    obtain ⟨e, he, rfl⟩ := List.mem_map.mp hn
    exact hw e (by simpa using (List.mem_filter.mp he).2)
  rw [hclaims, Nat.add_zero]
  rfl

omit [DecidableEq κ] [DecidableEq γ] in
theorem thread_of_deed {s : ChildState κ γ τ} {t : τ} {e : ChildEvent κ γ τ} (h : e ∈ s.deeds t) :
    e.thread = t :=
  of_decide_eq_true (List.mem_filter.mp (List.mem_of_mem_filter h)).2

/-- **Thread by thread**: as many lines of `c` were counted as have a fate, and as many counted
as cut as were. -/
theorem thread_tally (htrace : start.trace = [])
    (hrun : Reachable (sem lg children) ⟨start, fun t => thread lg children (threads t)⟩ p)
    (hdone : ∀ t, captures c (threads t) = true → p.prog t = .ret ()) (t : τ) :
    ((p.shared.deeds t).map fun e => (isCounted c .capturedLines e).toNat).sum =
        ((p.shared.deeds t).map (fates threads c)).sum ∧
      ((p.shared.deeds t).map fun e => (isCounted c .truncatedLines e).toNat).sum =
        ((p.shared.deeds t).map fun e => (isCut c e).toNat).sum := by
  obtain ⟨more, heffects, hreturned⟩ := threads_accounted htrace hrun t
  cases hcaptures : captures c (threads t) with
  | true =>
    obtain rfl := hreturned (hdone t hcaptures)
    rw [List.append_nil] at heffects
    cases hthreads : threads t with
    | calls => rw [hthreads] at hcaptures; cases hcaptures
    | capture c' stream reads =>
      rw [hthreads] at hcaptures heffects
      obtain rfl : c' = c := of_decide_eq_true hcaptures
      obtain ⟨rows, hrows, hdeeds⟩ := heffects
      rw [hdeeds]
      exact lines_tally hrows (by rw [hthreads]; exact hcaptures)
  | false =>
    -- nothing the thread did is about `c`
    have hzero : ∀ w : ChildEvent κ γ τ → ℕ, (∀ e ∈ p.shared.deeds t, w e = 0) →
        ((p.shared.deeds t).map w).sum = 0 := by
      intro w hw
      refine List.sum_eq_zero fun n hn => ?_
      obtain ⟨e, he, rfl⟩ := List.mem_map.mp hn
      exact hw e he
    have hother : ∀ e ∈ p.shared.deeds t, e.child? ≠ some c := fun e he =>
      child_of_other heffects hcaptures e (List.mem_append_left _ he)
    have hfates : ∀ e ∈ p.shared.deeds t, fates threads c e = 0 := by
      intro e he
      have hdrop : isDrop threads c e = false := by
        have hthread := thread_of_deed he
        unfold isDrop
        split
        next k t' emit =>
          obtain rfl : t' = t := hthread
          exact hcaptures
        all_goals rfl
      unfold fates
      rw [(not_about (hother e he)).1, (not_about (hother e he)).1, (not_about (hother e he)).2.1,
        hdrop]
      rfl
    have hcounted : ∀ counter, ∀ e ∈ p.shared.deeds t, (isCounted c counter e).toNat = 0 := by
      intro counter e he
      rw [(not_about (hother e he)).1]
      rfl
    have hcut : ∀ e ∈ p.shared.deeds t, (isCut c e).toNat = 0 := by
      intro e he
      rw [(not_about (hother e he)).2.2]
      rfl
    exact ⟨(hzero _ (hcounted _)).trans (hzero _ hfates).symm,
      (hzero _ (hcounted _)).trans (hzero _ hcut).symm⟩

/-- … and so in the whole trace. -/
theorem trace_tally (htrace : start.trace = [])
    (hrun : Reachable (sem lg children) ⟨start, fun t => thread lg children (threads t)⟩ p)
    (hdone : ∀ t, captures c (threads t) = true → p.prog t = .ret ()) :
    p.shared.trace.countP (isCounted c .capturedLines) =
        p.shared.trace.countP (isCounted c .suppressedLines) +
          p.shared.trace.countP (isCounted c .unloggedLines) +
          p.shared.trace.countP (isOutput c) + p.shared.trace.countP (isDrop threads c) ∧
      p.shared.trace.countP (isCounted c .truncatedLines) = p.shared.trace.countP (isCut c) := by
  have hthread := thread_tally htrace hrun hdone
  have hcounted : ∀ counter, ∀ e : ChildEvent κ γ τ, e.isClaim = true →
      (isCounted c counter e).toNat = 0 := by
    intro counter e he
    rw [(claim_weightless threads he).1]
    rfl
  constructor
  · have hsum : (p.shared.trace.map fun e => (isCounted c .capturedLines e).toNat).sum =
        (p.shared.trace.map (fates threads c)).sum := by
      refine Tally.sum_by_key ChildEvent.thread _ fun t => ?_
      rw [sum_thread _ t (hcounted _), sum_thread _ t fun e he => (claim_weightless threads he).2.2]
      exact (hthread t).1
    simp only [Tally.countP_eq_sum]
    rw [hsum]
    unfold fates
    rw [List.sum_map_add, List.sum_map_add, List.sum_map_add]
  · rw [Tally.countP_eq_sum, Tally.countP_eq_sum]
    refine Tally.sum_by_key ChildEvent.thread _ fun t => ?_
    rw [sum_thread _ t (hcounted _), sum_thread _ t fun e he => by
      rw [(claim_weightless threads he).2.1]; rfl]
    exact (hthread t).2

omit [DecidableEq κ] in
/-- What a thread handed on is in its deeds. -/
theorem handed_eq (s : ChildState κ γ τ) (c : γ) (t : τ) :
    s.handed c t = (s.deeds t).filterMap (handedLine c t) := by
  unfold ChildState.handed ChildState.deeds
  rw [List.filterMap_filter, List.filterMap_filter]
  refine List.filterMap_congr fun e _ => ?_
  cases e with
  | counted t' c' counter line =>
    by_cases ht : t' = t
    · simp [ChildEvent.thread, ChildEvent.isClaim, ht]
    · cases counter <;> simp [ChildEvent.thread, handedLine, ht]
  | host | shown | record => simp [handedLine]

/-- What was handed on by a thread that captures and has returned. -/
theorem handed_of_returned (htrace : start.trace = [])
    (hrun : Reachable (sem lg children) ⟨start, fun t => thread lg children (threads t)⟩ p) {t : τ}
    {stream : ChildStream} {reads : List (List UInt8)} (hthread : threads t = .capture c stream reads)
    (hreturned : p.prog t = .ret ()) :
    p.shared.handed c t = (splitLines reads.flatten).map (lineOf children c stream) := by
  obtain ⟨more, heffects, hmore⟩ := threads_accounted htrace hrun t
  obtain rfl := hmore hreturned
  rw [List.append_nil, hthread] at heffects
  obtain ⟨rows, hrows, hdeeds⟩ := heffects
  rw [handed_eq, hdeeds, filterMap_handed hrows]

/-- **Splitting and balance.** Whatever else the process does meanwhile, however `read` cuts the
streams and whatever the interceptors do. -/
theorem capture_balances (hcounters : ∀ c counter, start.counters c counter = 0)
    (htrace : start.trace = [])
    (hrun : Reachable (sem lg children) ⟨start, fun t => thread lg children (threads t)⟩ p)
    (hdone : ∀ t, captures c (threads t) = true → p.prog t = .ret ()) :
    (∀ t stream reads, threads t = .capture c stream reads →
      p.shared.handed c t = (splitLines reads.flatten).map (lineOf children c stream)) ∧
    p.shared.counters c .capturedLines =
      p.shared.counters c .suppressedLines + p.shared.counters c .unloggedLines +
        UInt64.ofNat (p.shared.trace.countP (isOutput c)) +
        UInt64.ofNat (p.shared.trace.countP (isDrop threads c)) ∧
    p.shared.counters c .truncatedLines = UInt64.ofNat (p.shared.trace.countP (isCut c)) := by
  have hagree : CountersAgree p.shared := by
    refine counters_eq ?_ hrun
    intro c counter
    show start.counters c counter = UInt64.ofNat (start.trace.countP _)
    rw [hcounters, htrace]
    rfl
  obtain ⟨hbalance, hcut⟩ := trace_tally htrace hrun hdone
  refine ⟨fun t stream reads hthread => ?_, ?_, ?_⟩
  · refine handed_of_returned htrace hrun hthread (hdone t ?_)
    rw [hthread]
    exact decide_eq_true rfl
  · rw [hagree, hagree, hagree, hbalance, UInt64.ofNat_add, UInt64.ofNat_add, UInt64.ofNat_add]
  · rw [hagree, hcut]

end Trace

/-- Two lines, the first one's ending cut between two pieces. -/
theorem capture_balances_cut_ending :
    (captureRun [[97, 98, 13], [10, 99]]).shared.handed () () =
        [⟨1, .stdout, [97, 98], false⟩, ⟨1, .stdout, [99], false⟩] ∧
      (captureRun [[97, 98, 13], [10, 99]]).shared.counters () .truncatedLines =
        UInt64.ofNat ((captureRun [[97, 98, 13], [10, 99]]).shared.trace.countP (isCut ())) := by
  have hrun : Reachable (sem smallProcess plainChild) ⟨smallProcessStart, fun _ =>
      thread smallProcess plainChild (.capture () .stdout [[97, 98, 13], [10, 99]])⟩
      (captureRun [[97, 98, 13], [10, 99]]) := runThread_reachable smallProcess plainChild () _
  have hall := capture_balances (c := ()) (fun _ _ => rfl) rfl hrun
    fun _ _ => runThread_returned smallProcess plainChild () _
  exact ⟨hall.1 () .stdout _ rfl, hall.2.2⟩

end Sub0Log.Child
