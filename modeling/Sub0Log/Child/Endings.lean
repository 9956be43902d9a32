import Sub0Log.Child.Balance

/-!
# Line endings

Where one thread captures a child, the counters are a function of the lines it handed on and of
the interceptor (`counters_of_returned`): what an interceptor answered is what it answers to the
lines so far, and nothing else about the run is counted.

So a stream whose lines end in CR LF and the same stream with LF alone come to the same lines and
counters when every line is split alike. The carriage return is carried like any other byte, and
a line as long as the cap has no room for it: **`endings_iff`** says that the two agree exactly
when no line is as long as the cap, and `endings_differ` shows one that is.
-/

open Interleaving

namespace Sub0Log.Child

open Wire Producer Abi

variable {κ γ τ : Type}

/-! ### What an interceptor answers -/

/-- The answers to lines shown one after another. -/
def answersTo (f : LineInterceptor) (lines : List ChildLine) : List Interception :=
  (List.range lines.length).map fun i => f (lines.take (i + 1))

theorem answersTo_append (f : LineInterceptor) (lines : List ChildLine) (line : ChildLine) :
    answersTo f (lines ++ [line]) = answersTo f lines ++ [f (lines ++ [line])] := by
  have hlength : (lines ++ [line]).length = lines.length + 1 := by simp
  unfold answersTo
  rw [hlength, List.range_succ, List.map_append, List.map_singleton, ← hlength, List.take_length]
  refine congrArg (· ++ _) (List.map_congr_left fun i hi => ?_)
  rw [List.take_append_of_le_length (List.mem_range.mp hi)]

/-- What is done with each of the lines. -/
def actionsOf (onLine : Option LineInterceptor) (lines : List ChildLine) : List InterceptAction :=
  match onLine with
  | none => lines.map fun _ => .log
  | some f => (answersTo f lines).map Interception.action

/-- The counters of a child, its lines handed on one after another. -/
def countersOf (child : ChildCaptureState κ) (lines : List ChildLine) : CaptureCounter → ℕ
  | .capturedLines => lines.length
  | .truncatedLines => lines.countP ChildLine.truncated
  | .suppressedLines => (actionsOf child.onLine lines).count .suppress
  | .unloggedLines =>
    if child.logger.isSome then 0 else (actionsOf child.onLine lines).count .log

/-- A line a child's interceptor was shown, and what it answered. -/
def shownPair [DecidableEq γ] (c : γ) : ChildEvent κ γ τ → Option (ChildLine × Interception)
  | .shown _ c' line found => if c' = c then some (line, found) else none
  | .host _ | .counted _ _ _ _ | .record _ _ _ _ => none

section Shown

variable [DecidableEq κ] [DecidableEq γ] [DecidableEq τ] {lg : κ → Logger τ}
  {children : γ → ChildCaptureState κ} {c : γ} {f : LineInterceptor}

/-- What was answered so far are the answers to what was shown so far. -/
def AnswersAgree (f : LineInterceptor) (c : γ) (s : ChildState κ γ τ) : Prop :=
  (s.trace.filterMap (shownPair c)).map Prod.snd =
    answersTo f ((s.trace.filterMap (shownPair c)).map Prod.fst)

omit [DecidableEq κ] [DecidableEq τ] in
theorem shownLines_eq (l : List (ChildEvent κ γ τ)) :
    l.filterMap (shownLine c) = (l.filterMap (shownPair c)).map Prod.fst := by
  rw [List.map_filterMap]
  refine List.filterMap_congr fun e _ => ?_
  cases e with
  | shown t c' line found =>
    show (if c' = c then some line else none) = (if c' = c then some (line, found) else none).map _
    split <;> rfl
  | host | counted | record => rfl

omit [DecidableEq κ] [DecidableEq τ] in
/-- A line shown, and the interceptor's answer. -/
theorem AnswersAgree.shown {s : ChildState κ γ τ} (h : AnswersAgree f c s) (t : τ) (line : ChildLine) :
    AnswersAgree f c { s with
      trace := s.trace ++ [.shown t c line (f (s.trace.filterMap (shownLine c) ++ [line]))] } := by
  rw [shownLines_eq]
  unfold AnswersAgree at h ⊢
  generalize hfound : f ((s.trace.filterMap (shownPair c)).map Prod.fst ++ [line]) = found
  have hpair : shownPair c (ChildEvent.shown (κ := κ) t c line found) = some (line, found) := if_pos rfl
  simp only [List.filterMap_append, List.filterMap_cons_some hpair, List.filterMap_nil,
    List.map_append, List.map_cons, List.map_nil, answersTo_append]
  rw [h, hfound]

theorem answersAgree_step {s s' : ChildState κ γ τ} {t : τ} {op : ChildOp κ γ} {r : op.Answer}
    (honLine : (children c).onLine = some f) (h : AnswersAgree f c s)
    (hstep : sem lg children t op s r s') : AnswersAgree f c s' := by
  -- what is not shown to this interceptor changes nothing
  have hother : ∀ added : List (ChildEvent κ γ τ), s'.trace = s.trace ++ added →
      (∀ e ∈ added, shownPair c e = none) → AnswersAgree f c s' := by
    intro added htrace hadded
    have hnone : added.filterMap (shownPair c) = [] := List.filterMap_eq_nil_iff.mpr hadded
    unfold AnswersAgree
    rw [htrace, List.filterMap_append, hnone, List.append_nil]
    exact h
  have hhost : ∀ {op : HostOp κ} {r : op.Answer} {after : List (ChildEvent κ γ τ)},
      OnHost lg t op s r after s' → (∀ e ∈ after, shownPair c e = none) → AnswersAgree f c s' := by
    rintro op r after ⟨v, new, -, -, rfl⟩ hafter
    refine hother _ (List.append_assoc _ _ _) fun e he => ?_
    rcases List.mem_append.mp he with he | he
    · obtain ⟨e', -, rfl⟩ := List.mem_map.mp he
      rfl
    · exact hafter e he
  cases op with
  | host op =>
    exact hhost (show OnHost lg t op s r [] s' from hstep) fun _ he => absurd he List.not_mem_nil
  | publish k op c' rec =>
    refine hhost (show OnHost lg t (.logger k op) s r [.record t c' k rec] s' from hstep) ?_
    intro e he
    rw [List.mem_singleton.mp he]
    rfl
  | fetchAdd c' counter line =>
    obtain rfl : s' = _ := hstep
    refine hother _ rfl fun e he => ?_
    rw [List.mem_singleton.mp he]
    rfl
  | onLine c' line =>
    obtain ⟨hanswer, rfl⟩ := hstep
    by_cases hc : c' = c
    · subst hc
      rw [honLine] at hanswer
      subst hanswer
      exact h.shown t line
    · refine hother _ rfl fun e he => ?_
      rw [List.mem_singleton.mp he]
      exact if_neg hc

/-- In every reachable state. -/
theorem answers_eq {p p' : Pool (ι := ChildOp κ γ) ChildOp.Answer τ (ChildState κ γ τ) Unit}
    (honLine : (children c).onLine = some f) (hstart : p.shared.trace = [])
    (hrun : Reachable (sem lg children) p p') : AnswersAgree f c p'.shared := by
  induction hrun with
  | refl =>
    unfold AnswersAgree
    rw [hstart]
    rfl
  | tail _ hstep ih =>
    obtain ⟨t, hby⟩ := hstep
    cases hby with
    | op hprog hsem => exact answersAgree_step honLine ih hsem

end Shown

/-! ### The counters of the lines -/

section Lines

variable {children : γ → ChildCaptureState κ} {t : τ} {c : γ}

/-- What writing a line does, by what the interceptor said of it. -/
def LineActs (children : γ → ChildCaptureState κ) (t : τ) (c : γ)
    (x : ChildLine × InterceptAction) (l : List (ChildEvent κ γ τ)) : Prop :=
  ∃ asked fate, Asked children t c x.1 x.2 asked ∧ Fate children t c x.1 x.2 fate ∧
    l = .counted t c .capturedLines x.1 :: (cutLineEvents t c x.1 ++ (asked ++ [fate]))

/-- The actions behind the rows of a thread. -/
theorem exists_actions {lines : List ChildLine} {rows : List (List (ChildEvent κ γ τ))}
    (h : List.Forall₂ (LineEffects children t c) lines rows) :
    ∃ actions, actions.length = lines.length ∧
      List.Forall₂ (LineActs children t c) (lines.zip actions) rows := by
  induction h with
  | nil => exact ⟨[], rfl, .nil⟩
  | cons hrow _ ih =>
    obtain ⟨action, hrow⟩ := hrow
    obtain ⟨actions, hlength, hrows⟩ := ih
    exact ⟨action :: actions, congrArg Nat.succ hlength, .cons hrow hrows⟩

variable [DecidableEq γ]

/-- What one line adds to a counter. -/
theorem counter_of_row {x : ChildLine × InterceptAction} {row : List (ChildEvent κ γ τ)}
    (h : LineActs children t c x row) (counter : CaptureCounter) :
    row.countP (isCounted c counter) = match counter with
      | .capturedLines => 1
      | .truncatedLines => x.1.truncated.toNat
      | .suppressedLines => if x.2 = .suppress then 1 else 0
      | .unloggedLines => if (children c).logger.isSome then 0 else if x.2 = .log then 1 else 0 := by
  obtain ⟨line, action⟩ := x
  obtain ⟨asked, fate, hasked, hfate, rfl⟩ := h
  have hshown : asked.countP (isCounted c counter) = 0 := by
    cases hasked <;> rfl
  have hcut : (cutLineEvents (κ := κ) t c line).countP (isCounted c counter) =
      if counter = .truncatedLines then line.truncated.toNat else 0 := by
    unfold cutLineEvents
    cases line.truncated <;> cases counter <;> simp [isCounted]
  rw [List.countP_cons, List.countP_append, List.countP_append, hshown, hcut, List.countP_singleton]
  cases hfate with
  | suppressed => cases counter <;> simp [isCounted]
  | unlogged h => cases counter <;> simp [isCounted, h]
  | written k h => cases counter <;> simp [isCounted, h]
  | dropped k h => cases counter <;> simp [isCounted, h]

/-- … and all of them, the actions being known. -/
theorem counter_of_rows {lines : List ChildLine} {actions : List InterceptAction}
    {rows : List (List (ChildEvent κ γ τ))} (hlength : actions.length = lines.length)
    (h : List.Forall₂ (LineActs children t c) (lines.zip actions) rows) (counter : CaptureCounter) :
    rows.flatten.countP (isCounted c counter) = match counter with
      | .capturedLines => lines.length
      | .truncatedLines => lines.countP ChildLine.truncated
      | .suppressedLines => actions.count .suppress
      | .unloggedLines => if (children c).logger.isSome then 0 else actions.count .log := by
  induction lines generalizing actions rows with
  | nil =>
    obtain rfl := List.length_eq_zero_iff.mp hlength
    cases h
    cases counter with
    | unloggedLines =>
      show 0 = if (children c).logger.isSome then 0 else 0
      exact (ite_self 0).symm
    | capturedLines | truncatedLines | suppressedLines => rfl
  | cons line lines ih =>
    cases actions with
    | nil => cases hlength
    | cons action actions =>
      cases h with
      | cons hrow hrows =>
        rw [List.flatten_cons, List.countP_append, counter_of_row hrow,
          ih (Nat.succ.inj hlength) hrows]
        cases counter with
        | capturedLines => exact Nat.add_comm _ _
        | truncatedLines =>
          show _ = (line :: lines).countP ChildLine.truncated
          rw [List.countP_cons, Nat.add_comm]
          cases line.truncated <;> rfl
        | suppressedLines =>
          show _ = (action :: actions).count .suppress
          rw [List.count_cons, Nat.add_comm]
          cases action <;> rfl
        | unloggedLines =>
          show (if (children c).logger.isSome then 0 else if action = .log then 1 else 0) +
            (if (children c).logger.isSome then 0 else actions.count .log) =
              if (children c).logger.isSome then 0 else (action :: actions).count InterceptAction.log
          rw [List.count_cons]
          generalize (children c).logger.isSome = bound
          cases bound with
          | true => rfl
          | false =>
            rw [Nat.add_comm]
            cases action <;> rfl

/-- What was shown of the lines. -/
theorem shown_of_rows {lines : List ChildLine} {actions : List InterceptAction}
    {rows : List (List (ChildEvent κ γ τ))} (hlength : actions.length = lines.length)
    (h : List.Forall₂ (LineActs children t c) (lines.zip actions) rows) :
    match (children c).onLine with
    | none => actions = lines.map fun _ => .log
    | some _ =>
      (rows.flatten.filterMap (shownPair c)).map Prod.fst = lines ∧
        (rows.flatten.filterMap (shownPair c)).map (fun x => x.2.action) = actions := by
  induction lines generalizing actions rows with
  | nil =>
    obtain rfl := List.length_eq_zero_iff.mp hlength
    cases h
    split
    · rfl
    · exact ⟨rfl, rfl⟩
  | cons line lines ih =>
    cases actions with
    | nil => cases hlength
    | cons action actions =>
      cases h with
      | cons hrow hrows =>
        have hrest := ih (Nat.succ.inj hlength) hrows
        obtain ⟨asked, fate, hasked, hfate, rfl⟩ := hrow
        have hcut : (cutLineEvents (κ := κ) t c line).filterMap (shownPair c) = [] := by
          unfold cutLineEvents
          split <;> rfl
        have hlast : [fate].filterMap (shownPair c) = [] := by cases hfate <;> rfl
        have hfirst : shownPair (κ := κ) c (.counted t c .capturedLines line) = none := rfl
        split
        next hnone =>
          rw [hnone] at hrest
          have haction : action = .log := by
            cases hasked with
            | empty => rfl
            | shown hsome => rw [hnone] at hsome; cases hsome
          rw [haction, hrest]
          rfl
        next f hsome =>
          rw [hsome] at hrest
          have hfound : ∃ found, asked.filterMap (shownPair c) = [(line, found)] ∧
              found.action = action := by
            cases hasked with
            | empty hnone => rw [hsome] at hnone; cases hnone
            | shown _ found => exact ⟨found, by simp [shownPair], rfl⟩
          obtain ⟨found, hfound, rfl⟩ := hfound
          have hrow : (ChildEvent.counted t c .capturedLines line ::
              (cutLineEvents t c line ++ (asked ++ [fate]))).filterMap (shownPair c) =
              [(line, found)] := by
            rw [List.filterMap_cons_none hfirst, List.filterMap_append, List.filterMap_append, hcut,
              hfound, hlast]
            rfl
          rw [List.flatten_cons, List.filterMap_append, hrow]
          exact ⟨congrArg _ hrest.1, congrArg _ hrest.2⟩

end Lines

/-! ### One capturing thread -/

section Returned

variable [DecidableEq κ] [DecidableEq γ] [DecidableEq τ] {lg : κ → Logger τ}
  {children : γ → ChildCaptureState κ} {threads : τ → ChildThread κ γ} {start : ChildState κ γ τ}
  {p : Pool (ι := ChildOp κ γ) ChildOp.Answer τ (ChildState κ γ τ) Unit} {c : γ} {t : τ}

/-- Where `t` alone captures `c`, what is about its lines are deeds of `t`. -/
theorem filterMap_deeds (htrace : start.trace = [])
    (hrun : Reachable (sem lg children) ⟨start, fun t => thread lg children (threads t)⟩ p)
    (hone : ∀ t', captures c (threads t') = true → t' = t) {β : Type}
    {g : ChildEvent κ γ τ → Option β} (hg : ∀ e, e.child? ≠ some c → g e = none) :
    p.shared.trace.filterMap g = (p.shared.deeds t).filterMap g := by
  unfold ChildState.deeds
  rw [List.filterMap_filter, List.filterMap_filter]
  refine List.filterMap_congr fun e he => ?_
  by_cases habout : e.child? = some c
  · -- it is a deed of its thread, which captures `c`
    have hclaim : e.isClaim = false := by
      cases e with
      | host => cases habout
      | counted | shown | record => rfl
    have hdeed : e ∈ p.shared.deeds e.thread :=
      List.mem_filter.mpr ⟨List.mem_filter.mpr ⟨he, decide_eq_true rfl⟩, by rw [hclaim]; rfl⟩
    have hthread : e.thread = t := by
      refine hone e.thread ?_
      obtain ⟨more, heffects, -⟩ := threads_accounted htrace hrun e.thread
      by_contra hnot
      exact child_of_other heffects (Bool.not_eq_true _ ▸ hnot) e (List.mem_append_left _ hdeed) habout
    rw [hclaim, if_pos (decide_eq_true hthread)]
    rfl
  · rw [hg e habout]
    simp

/-- **The counters of a child** when the one thread that captures it has returned. -/
theorem counters_of_returned (hcounters : ∀ c counter, start.counters c counter = 0)
    (htrace : start.trace = [])
    (hrun : Reachable (sem lg children) ⟨start, fun t => thread lg children (threads t)⟩ p)
    (hone : ∀ t', captures c (threads t') = true → t' = t) {stream : ChildStream}
    {reads : List (List UInt8)} (hthread : threads t = .capture c stream reads)
    (hreturned : p.prog t = .ret ()) (counter : CaptureCounter) :
    p.shared.counters c counter = UInt64.ofNat (countersOf (children c)
      ((splitLines reads.flatten).map (lineOf children c stream)) counter) := by
  have hagree : CountersAgree p.shared := by
    refine counters_eq ?_ hrun
    intro c counter
    show start.counters c counter = UInt64.ofNat (start.trace.countP _)
    rw [hcounters, htrace]
    rfl
  obtain ⟨more, heffects, hmore⟩ := threads_accounted htrace hrun t
  obtain rfl := hmore hreturned
  rw [List.append_nil, hthread] at heffects
  obtain ⟨rows, hrows, hdeeds⟩ := heffects
  obtain ⟨actions, hlength, hacts⟩ := exists_actions hrows
  generalize (splitLines reads.flatten).map (lineOf children c stream) = lines at hlength hacts hrows ⊢
  -- the actions are what the interceptor says
  have hactions : actions = actionsOf (children c).onLine lines := by
    have hshown := shown_of_rows hlength hacts
    unfold actionsOf
    split
    next hnone =>
      rw [hnone] at hshown
      exact hshown
    next f hsome =>
      rw [hsome] at hshown
      have hanswers : AnswersAgree f c p.shared := answers_eq hsome htrace hrun
      unfold AnswersAgree at hanswers
      rw [filterMap_deeds htrace hrun hone (g := shownPair c) ?_, hdeeds, hshown.1] at hanswers
      · rw [← hanswers, List.map_map]
        exact hshown.2.symm
      · intro e he
        cases e with
        | shown t' c' line found => exact if_neg fun heq => he (congrArg some heq)
        | host | counted | record => rfl
  -- and the counts are those of its deeds
  have hcount : p.shared.trace.countP (isCounted c counter) =
      rows.flatten.countP (isCounted c counter) := by
    have hlist := filterMap_deeds htrace hrun hone
      (g := Option.guard fun e => isCounted c counter e) fun e he => by
        rw [Option.guard_eq_none_iff]
        exact (not_about he).1 counter
    rw [List.filterMap_eq_filter, hdeeds] at hlist
    rw [List.countP_eq_length_filter, List.countP_eq_length_filter, hlist]
  rw [hagree, hcount, counter_of_rows hlength hacts, hactions]
  cases counter <;> rfl

end Returned

/-! ### The two endings -/

/-- A completed capture of one stream of child `c` by thread `t`, in the pieces `reads`; no other
thread captures `c`, and all of them may do anything else. -/
structure Captured [DecidableEq κ] [DecidableEq γ] [DecidableEq τ] (lg : κ → Logger τ)
    (children : γ → ChildCaptureState κ) (c : γ) (stream : ChildStream) (reads : List (List UInt8))
    (t : τ) (s : ChildState κ γ τ) : Prop where
  run : ∃ (threads : τ → ChildThread κ γ) (start : ChildState κ γ τ)
    (prog : τ → ChildCode κ γ Unit), (∀ c counter, start.counters c counter = 0) ∧
      start.trace = [] ∧
      Reachable (sem lg children) ⟨start, fun t => thread lg children (threads t)⟩ ⟨s, prog⟩ ∧
      threads t = .capture c stream reads ∧ (∀ t', captures c (threads t') = true → t' = t) ∧
      prog t = .ret ()

section Endings

variable [DecidableEq κ] [DecidableEq γ] [DecidableEq τ] {lg lg' : κ → Logger τ}
  {children : γ → ChildCaptureState κ} {c : γ} {stream : ChildStream}

/-- What a completed capture leaves: the lines of its stream, and their counters. -/
theorem Captured.shows {reads : List (List UInt8)} {t : τ} {s : ChildState κ γ τ}
    (h : Captured lg children c stream reads t s) :
    s.handed c t = (splitLines reads.flatten).map (lineOf children c stream) ∧
      ∀ counter, s.counters c counter = UInt64.ofNat (countersOf (children c)
        ((splitLines reads.flatten).map (lineOf children c stream)) counter) := by
  obtain ⟨threads, start, prog, hcounters, htrace, hrun, hthread, hone, hreturned⟩ := h.run
  exact ⟨handed_of_returned htrace hrun hthread hreturned,
    counters_of_returned hcounters htrace hrun hone hthread hreturned⟩

/-- A line that ended in a line feed. -/
theorem terminated_lf {line : List UInt8} (h : line.getLast? ≠ some cCR) :
    terminated line =
      if line.length ≤ cLineCap then (line, false) else (line.take cLineCap, true) := by
  unfold terminated
  rw [if_neg h]

/-- The same line ended in a carriage return and a line feed. -/
theorem terminated_crlf (line : List UInt8) :
    terminated (line ++ [cCR]) =
      if line.length < cLineCap then (line, false) else (line.take cLineCap, true) := by
  have hlength : (line ++ [cCR]).length = line.length + 1 := by simp
  unfold terminated
  rw [List.getLast?_concat, if_pos rfl, List.dropLast_concat, hlength]
  split
  · rw [if_pos ‹_›]
  · rw [if_neg ‹_›, List.take_append_of_le_length (by omega)]

/-- A line is split alike under both endings unless it is as long as the cap. -/
theorem terminated_eq_iff {line : List UInt8} (h : line.getLast? ≠ some cCR) :
    terminated (line ++ [cCR]) = terminated line ↔ line.length ≠ cLineCap := by
  rw [terminated_lf h, terminated_crlf]
  obtain hlt | heq | hgt := Nat.lt_trichotomy line.length cLineCap
  · rw [if_pos hlt, if_pos (Nat.le_of_lt hlt)]
    exact ⟨fun _ => Nat.ne_of_lt hlt, fun _ => rfl⟩
  · rw [if_neg (by omega), if_pos (Nat.le_of_eq heq)]
    refine ⟨fun hflag => ?_, fun hne => absurd heq hne⟩
    cases congrArg Prod.snd hflag
  · rw [if_neg (by omega), if_neg (by omega)]
    exact ⟨fun _ => Nat.ne_of_gt hgt, fun _ => rfl⟩

/-- **The two endings agree exactly when no line is as long as the cap.** -/
theorem endings_iff {lines : List (List UInt8)}
    (hlines : ∀ line ∈ lines, cLF ∉ line ∧ line.getLast? ≠ some cCR) {reads reads' : List (List UInt8)}
    (hcrlf : reads.flatten = lines.flatMap fun line => line ++ [cCR, cLF])
    (hlf : reads'.flatten = lines.flatMap fun line => line ++ [cLF]) {t t' : τ}
    {s s' : ChildState κ γ τ} (h : Captured lg children c stream reads t s)
    (h' : Captured lg' children c stream reads' t' s') :
    (s.handed c t = s'.handed c t' ∧ s.counters c = s'.counters c) ↔
      ∀ line ∈ lines, line.length ≠ cLineCap := by
  have hfeeds : ∀ line ∈ lines, cLF ∉ line := fun line hline => (hlines line hline).1
  have hsplit : splitLines reads.flatten = lines.map fun line => terminated (line ++ [cCR]) := by
    rw [hcrlf]
    exact splitLines_flatMap [cCR] lines hfeeds (by decide)
  have hsplit' : splitLines reads'.flatten = lines.map terminated := by
    rw [hlf]
    refine (splitLines_flatMap [] lines hfeeds List.not_mem_nil).trans ?_
    exact List.map_congr_left fun line _ => by rw [List.append_nil]
  obtain ⟨hhanded, hcounters⟩ := h.shows
  obtain ⟨hhanded', hcounters'⟩ := h'.shows
  rw [hsplit] at hhanded hcounters
  rw [hsplit'] at hhanded' hcounters'
  constructor
  · rintro ⟨heq, -⟩ line hline
    rw [hhanded, hhanded'] at heq
    have hinj : Function.Injective (lineOf children c stream) := by
      rintro ⟨text, cut⟩ ⟨text', cut'⟩ hsame
      exact Prod.ext (congrArg ChildLine.text hsame) (congrArg ChildLine.truncated hsame)
    have hmap := List.map_injective_iff.mpr hinj heq
    exact (terminated_eq_iff (hlines line hline).2).mp (List.map_eq_map_iff.mp hmap line hline)
  · intro hshort
    have hmap : lines.map (fun line => terminated (line ++ [cCR])) = lines.map terminated :=
      List.map_congr_left fun line hline =>
        (terminated_eq_iff (hlines line hline).2).mpr (hshort line hline)
    rw [hmap] at hhanded hcounters
    refine ⟨hhanded.trans hhanded'.symm, funext fun counter => ?_⟩
    rw [hcounters, hcounters']

end Endings

/-- The small process captures a stream. -/
theorem captureRun_captured (reads : List (List UInt8)) :
    Captured smallProcess plainChild () .stdout reads () (captureRun reads).shared :=
  ⟨fun _ => .capture () .stdout reads, smallProcessStart, (captureRun reads).prog,
    fun _ _ => rfl, rfl, runThread_reachable smallProcess plainChild () _, rfl, fun _ _ => rfl,
    runThread_returned smallProcess plainChild () _⟩

theorem endings_iff_short :
    (captureRun [[97, 13], [10]]).shared.handed () () = (captureRun [[97, 10]]).shared.handed () () ∧
      (captureRun [[97, 13], [10]]).shared.counters () =
        (captureRun [[97, 10]]).shared.counters () := by
  have hlines : ∀ line ∈ [([97] : List UInt8)], cLF ∉ line ∧ line.getLast? ≠ some cCR := by decide
  have hcrlf : ([[97, 13], [10]] : List (List UInt8)).flatten =
      ([[97]] : List (List UInt8)).flatMap fun line => line ++ [cCR, cLF] := rfl
  have hlf : ([[97, 10]] : List (List UInt8)).flatten =
      ([[97]] : List (List UInt8)).flatMap fun line => line ++ [cLF] := rfl
  exact (endings_iff hlines hcrlf hlf (captureRun_captured [[97, 13], [10]])
    (captureRun_captured [[97, 10]])).mpr (by decide)

/-- A line as long as the cap: cut under the one ending, whole under the other. -/
theorem endings_differ :
    (cLF ∉ List.replicate cLineCap 97 ∧ (List.replicate cLineCap (97 : UInt8)).getLast? ≠ some cCR) ∧
      (captureRun [List.replicate cLineCap 97 ++ [cCR, cLF]]).shared.handed () () =
        [⟨1, .stdout, List.replicate cLineCap 97, true⟩] ∧
      (captureRun [List.replicate cLineCap 97 ++ [cLF]]).shared.handed () () =
        [⟨1, .stdout, List.replicate cLineCap 97, false⟩] ∧
      (captureRun [List.replicate cLineCap 97 ++ [cCR, cLF]]).shared.counters () .truncatedLines = 1 ∧
      (captureRun [List.replicate cLineCap 97 ++ [cLF]]).shared.counters () .truncatedLines = 0 := by
  have hfeed : cLF ∉ List.replicate cLineCap 97 := by
    intro hmem
    exact absurd (List.eq_of_mem_replicate hmem) (by decide)
  have hreturn : (List.replicate cLineCap (97 : UInt8)).getLast? ≠ some cCR := by
    intro hlast
    exact absurd (List.eq_of_mem_replicate (List.mem_of_getLast? hlast)) (by decide)
  have hlength : (List.replicate cLineCap (97 : UInt8)).length = cLineCap := List.length_replicate
  generalize List.replicate cLineCap (97 : UInt8) = line at hfeed hreturn hlength ⊢
  have hone : ∀ l ∈ [line], cLF ∉ l := by
    intro l hl
    rw [List.mem_singleton.mp hl]
    exact hfeed
  have hcrlf : splitLines [line ++ [cCR, cLF]].flatten = [(line, true)] := by
    have hsplit := splitLines_flatMap [cCR] [line] hone (by decide)
    rw [List.map_singleton, terminated_crlf, if_neg (by omega), ← hlength, List.take_length] at hsplit
    exact hsplit
  have hlf : splitLines [line ++ [cLF]].flatten = [(line, false)] := by
    have hsplit := splitLines_flatMap [] [line] hone List.not_mem_nil
    rw [List.map_singleton, List.append_nil, terminated_lf hreturn, if_pos (by omega)] at hsplit
    exact hsplit
  obtain ⟨hhanded, hcounters⟩ := (captureRun_captured [line ++ [cCR, cLF]]).shows
  obtain ⟨hhanded', hcounters'⟩ := (captureRun_captured [line ++ [cLF]]).shows
  rw [hcrlf] at hhanded hcounters
  rw [hlf] at hhanded' hcounters'
  exact ⟨⟨hfeed, hreturn⟩, hhanded, hhanded', hcounters .truncatedLines, hcounters' .truncatedLines⟩

end Sub0Log.Child
