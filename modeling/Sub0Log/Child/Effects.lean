import Sub0Log.Abi.Effects
import Sub0Log.Child.Lines

/-!
# What capturing does

`LineEffects` lists what writing one captured line may do, whatever the other threads do
meanwhile: the line is counted, shown to the interceptor if there is one, and then suppressed,
unlogged, written or dropped, one of the four.

**`threads_accounted`** says so of every thread in every interleaving: what a capturing thread did
is a beginning of what its lines do, one after another, and all of it when it has returned; a
thread that captures nothing neither counts nor shows nor writes a line.
-/

open Interleaving

namespace Sub0Log.Child

open Wire Producer Abi

variable {κ γ τ : Type}

/-! ### The record of a thread -/

/-- The claim of a chunk. -/
def ChildEvent.isClaim : ChildEvent κ γ τ → Bool
  | host e => e.isClaim
  | counted _ _ _ _ | shown _ _ _ _ | record _ _ _ _ => false

/-- What an operation adds to the trace, claims apart. -/
def ChildOp.effects (t : τ) : (op : ChildOp κ γ) → op.Answer → List (ChildEvent κ γ τ)
  | .host op, answer => (op.effects t answer).map .host
  | .publish k op c r, answer =>
    ((HostOp.logger k op).effects t answer).map .host ++ [.record t c k r]
  | .fetchAdd c counter line, _ => [.counted t c counter line]
  | .onLine c line, found => [.shown t c line found]

section Record

variable [DecidableEq τ]

/-- What thread `t` did, claims apart. -/
def ChildState.deeds (s : ChildState κ γ τ) (t : τ) : List (ChildEvent κ γ τ) :=
  (s.trace.filter fun e => e.thread = t).filter fun e => !e.isClaim

variable [DecidableEq κ] [DecidableEq γ] {lg : κ → Logger τ}
  {children : γ → ChildCaptureState κ} {t : τ} {s s' : ChildState κ γ τ}

omit [DecidableEq γ] in
/-- What an operation of the host's code notes. -/
theorem OnHost.trace {op : HostOp κ} {r : op.Answer} {after : List (ChildEvent κ γ τ)}
    (h : OnHost lg t op s r after s') :
    ∃ new : List (HostEvent κ τ), s'.trace = s.trace ++ (new.map .host ++ after) ∧
      (∀ e ∈ new, HostEvent.thread e = t) ∧
      new.filter (fun e => !e.isClaim) = op.effects t r := by
  obtain ⟨v, new, hstep, htrace, rfl⟩ := h
  obtain ⟨new', htrace', hown, hdeeds⟩ := host_trace hstep
  obtain rfl : new = new' := List.append_cancel_left (htrace.symm.trans htrace')
  exact ⟨new, List.append_assoc _ _ _, hown, hdeeds⟩

omit [DecidableEq τ] [DecidableEq κ] [DecidableEq γ] in
theorem filter_host (new : List (HostEvent κ τ)) :
    (new.map (ChildEvent.host (γ := γ))).filter (fun e => !e.isClaim) =
      (new.filter fun e => !e.isClaim).map ChildEvent.host := List.filter_map

/-- The events of a step are its thread's, and claims apart they are its effects. -/
theorem child_trace {op : ChildOp κ γ} {r : op.Answer} (h : sem lg children t op s r s') :
    ∃ added, s'.trace = s.trace ++ added ∧ (∀ e ∈ added, ChildEvent.thread e = t) ∧
      added.filter (fun e => !e.isClaim) = op.effects t r := by
  have hown : ∀ new : List (HostEvent κ τ), (∀ e ∈ new, HostEvent.thread e = t) →
      ∀ e ∈ new.map (ChildEvent.host (γ := γ)), ChildEvent.thread e = t := by
    intro new hnew e he
    obtain ⟨e', he', rfl⟩ := List.mem_map.mp he
    exact hnew e' he'
  have hone : ∀ e : ChildEvent κ γ τ, e.thread = t → ∀ e' ∈ [e], ChildEvent.thread e' = t := by
    intro e he e' hmem
    rw [List.mem_singleton.mp hmem]
    exact he
  cases op with
  | host op =>
    obtain ⟨new, htrace, hnew, hdeeds⟩ := OnHost.trace (show OnHost lg t op s r [] s' from h)
    rw [List.append_nil] at htrace
    refine ⟨_, htrace, hown new hnew, ?_⟩
    rw [filter_host, hdeeds]
    rfl
  | publish k op c rec =>
    obtain ⟨new, htrace, hnew, hdeeds⟩ :=
      OnHost.trace (show OnHost lg t (.logger k op) s r [.record t c k rec] s' from h)
    refine ⟨_, htrace, fun e he => ?_, ?_⟩
    · rcases List.mem_append.mp he with he | he
      · exact hown new hnew e he
      · exact hone _ rfl e he
    · rw [List.filter_append, filter_host, hdeeds]
      rfl
  | fetchAdd c counter line =>
    obtain rfl : s' = _ := h
    exact ⟨_, rfl, hone _ rfl, rfl⟩
  | onLine c line =>
    obtain rfl : s' = _ := h.2
    exact ⟨_, rfl, hone _ rfl, rfl⟩

/-- **Every step** adds its effects to the record of the thread that makes it. -/
theorem child_deeds_step {op : ChildOp κ γ} {r : op.Answer} (h : sem lg children t op s r s') :
    s'.deeds t = s.deeds t ++ op.effects t r ∧ ∀ t', t' ≠ t → s'.deeds t' = s.deeds t' := by
  obtain ⟨added, htrace, hown, heffects⟩ := child_trace h
  unfold ChildState.deeds
  rw [htrace]
  constructor
  · rw [List.filter_append, List.filter_append,
      List.filter_eq_self.mpr fun e he => decide_eq_true (hown e he), heffects]
  · intro t' hne
    have hnone : added.filter (fun e => e.thread = t') = [] :=
      List.filter_eq_nil_iff.mpr fun e he heq =>
        hne ((of_decide_eq_true heq).symm.trans (hown e he))
    rw [List.filter_append, hnone, List.append_nil]

end Record

/-! ### Lines -/

/-- What becomes of a line, by what the interceptor said. -/
inductive Fate (children : γ → ChildCaptureState κ) (t : τ) (c : γ) (line : ChildLine) :
    InterceptAction → ChildEvent κ γ τ → Prop
  | suppressed : Fate children t c line .suppress (.counted t c .suppressedLines line)
  | unlogged (h : (children c).logger = none) :
      Fate children t c line .log (.counted t c .unloggedLines line)
  | written (k : κ) (h : (children c).logger = some k) :
      Fate children t c line .log (.record t c k (.output line))
  | dropped (k : κ) (h : (children c).logger = some k) :
      Fate children t c line .log (.host (.logged k (.dropped t none)))

/-- What asking the interceptor does. -/
inductive Asked (children : γ → ChildCaptureState κ) (t : τ) (c : γ) (line : ChildLine) :
    InterceptAction → List (ChildEvent κ γ τ) → Prop
  | empty (h : (children c).onLine = none) : Asked children t c line .log []
  | shown (h : (children c).onLine.isSome = true) (found : Interception) :
      Asked children t c line found.action [.shown t c line found]

/-- The count of a line that was cut. -/
def cutLineEvents (t : τ) (c : γ) (line : ChildLine) : List (ChildEvent κ γ τ) :=
  if line.truncated then [.counted t c .truncatedLines line] else []

/-- What writing a line does. -/
def LineEffects (children : γ → ChildCaptureState κ) (t : τ) (c : γ) (line : ChildLine)
    (l : List (ChildEvent κ γ τ)) : Prop :=
  ∃ action asked fate, Asked children t c line action asked ∧ Fate children t c line action fate ∧
    l = .counted t c .capturedLines line :: (cutLineEvents t c line ++ (asked ++ [fate]))

variable {t : τ}

/-- The program has these effects for thread `t`. -/
abbrev ChildDoes {α : Type} (t : τ) (x : ChildCode κ γ α)
    (Q : α → List (ChildEvent κ γ τ) → Prop) : Prop := x.Does (ChildOp.effects t) Q

/-- The host's code has the effects it has. -/
theorem onHost_does {α : Type} {x : HostCode κ α} {Q : α → List (HostEvent κ τ) → Prop}
    (hx : HostDoes t x Q) :
    ChildDoes (γ := γ) t (onHost x) fun a l => ∃ l', Q a l' ∧ l = l'.map .host := by
  induction x generalizing Q with
  | ret a => exact ⟨[], hx, rfl⟩
  | op i next ih =>
    refine fun r => (ih r (hx r)).mono fun a l hl => ?_
    obtain ⟨l', hQ, rfl⟩ := hl
    exact ⟨_, hQ, List.map_append.symm⟩

/-- And so has the producer's. -/
theorem onProducer_does {α : Type} {x : Code α} {Q : α → List (Event τ) → Prop} (k : κ)
    (hx : Does t x Q) :
    ChildDoes (γ := γ) t (onProducer k x) fun a l =>
      ∃ l', Q a l' ∧ l = l'.map fun e => .host (.logged k e) := by
  refine (onHost_does (onLogger_does k hx)).mono fun a l hl => ?_
  obtain ⟨l', ⟨l'', hQ, rfl⟩, rfl⟩ := hl
  exact ⟨l'', hQ, List.map_map⟩

theorem onProducer_silent {α : Type} {x : Code α} (k : κ) (hx : Silent t x) :
    ChildDoes (γ := γ) t (onProducer k x) fun _ l => l = [] := by
  refine (onProducer_does k hx).mono fun a l hl => ?_
  obtain ⟨l', rfl, rfl⟩ := hl
  rfl

section Functions

variable (lg : κ → Logger τ) (children : γ → ChildCaptureState κ)

theorem commitRecord_does (c : γ) (k : κ) (slot : Reservation) (kind : RecordKind)
    (truncated : Bool) (payloadBytes : Nat) (r : ChildRecord) :
    ChildDoes t (commitRecord lg c k slot kind truncated payloadBytes r) fun _ l =>
      l = [.record t c k r] := by
  unfold commitRecord
  by_cases hsplit : (lg k).split = true
  · simp only [if_pos hsplit]
    have hlow : ∀ half, Silent t (storeLow32 slot.headWord half) := fun _ => Prog.Does.perform _
    exact Prog.Does.after_silent (onProducer_silent k (hlow _)) fun _ => Prog.Does.perform _
  · simp only [if_neg hsplit]
    exact Prog.Does.perform _

/-- A record is written, or dropped and that is counted. -/
theorem writeRecord_does (c : γ) (k : κ) (payloadBytes : Nat) (payload : UInt64 → List UInt8)
    (kind : RecordKind) (truncated : Bool) (r : ChildRecord) :
    ChildDoes t (writeRecord lg c k payloadBytes payload kind truncated r) fun _ l =>
      l = [.record t c k r] ∨ l = [.host (.logged k (.dropped t none))] := by
  refine Prog.Does.bind_of (onProducer_does k (reserveRecord_does payloadBytes none))
    fun slot l hl => ?_
  obtain ⟨l', hslot, rfl⟩ := hl
  cases slot with
  | none =>
    obtain rfl : l' = [.dropped t none] := hslot
    exact Or.inr rfl
  | some slot =>
    obtain rfl : l' = [] := hslot
    have hclock : Silent t monotonicNow := Prog.Does.perform _
    refine Prog.Does.after_silent (onProducer_silent k hclock) fun monoNs => ?_
    refine Prog.Does.after_silent (onProducer_silent k (copyBytes_plain _ _).silent) fun _ => ?_
    exact (commitRecord_does lg c k slot kind truncated payloadBytes r).mono fun _ _ hl => Or.inl hl

theorem intercept_does (c : γ) (line : ChildLine) :
    ChildDoes t (intercept children c line) fun action l => Asked children t c line action l := by
  unfold intercept
  by_cases hset : (children c).onLine.isSome = true
  · rw [if_pos hset]
    refine Prog.Does.bind_of (Prog.Does.perform (ChildOp.onLine c line)) fun found l hl => ?_
    subst hl
    exact Asked.shown hset found
  · rw [if_neg hset]
    exact Asked.empty (Option.not_isSome_iff_eq_none.mp hset)

theorem countTruncatedLine_does (c : γ) (line : ChildLine) :
    ChildDoes (κ := κ) t (countTruncatedLine c line) fun _ l => l = cutLineEvents t c line := by
  unfold countTruncatedLine cutLineEvents
  split
  · exact Prog.Does.perform _
  · exact rfl

/-- `writeChildOutputLine`. -/
theorem writeChildOutputLine_does (c : γ) (line : ChildLine) :
    ChildDoes t (writeChildOutputLine lg children c line) fun _ =>
      LineEffects children t c line := by
  refine Prog.Does.bind_of (Prog.Does.perform (ChildOp.fetchAdd c .capturedLines line))
    fun _ l hl => ?_
  subst hl
  refine Prog.Does.bind_of (countTruncatedLine_does c line) fun _ l hl => ?_
  subst hl
  refine Prog.Does.bind_of (intercept_does children c line) fun action asked hasked => ?_
  cases action with
  | suppress =>
    refine Prog.Does.mono (Prog.Does.perform (ChildOp.fetchAdd c .suppressedLines line))
      fun _ l hl => ?_
    rw [hl]
    exact ⟨_, asked, _, hasked, .suppressed, rfl⟩
  | log =>
    rw [if_neg (by decide)]
    split
    next hnone =>
      refine Prog.Does.mono (Prog.Does.perform (ChildOp.fetchAdd c .unloggedLines line))
        fun _ l hl => ?_
      rw [hl]
      exact ⟨_, asked, _, hasked, .unlogged hnone, rfl⟩
    next k hsome =>
      refine Prog.Does.mono (writeRecord_does lg c k _ _ _ _ _) fun _ l hl => ?_
      obtain rfl | rfl := hl
      · exact ⟨_, asked, _, hasked, .written k hsome, rfl⟩
      · exact ⟨_, asked, _, hasked, .dropped k hsome, rfl⟩

/-- All lines of a stream. -/
theorem writeLines_does (c : γ) (lines : List ChildLine) :
    ChildDoes t (writeLines lg children c lines) fun _ l =>
      ∃ rows, List.Forall₂ (LineEffects children t c) lines rows ∧ l = rows.flatten := by
  induction lines with
  | nil => exact ⟨[], .nil, rfl⟩
  | cons line lines ih =>
    refine Prog.Does.bind_of (writeChildOutputLine_does lg children c line) fun _ l hl =>
      ih.mono fun _ l' hl' => ?_
    obtain ⟨rows, hrows, rfl⟩ := hl'
    exact ⟨l :: rows, .cons hl hrows, rfl⟩

/-! ### Threads -/

/-- The child whose line an event is about. -/
def ChildEvent.child? : ChildEvent κ γ τ → Option γ
  | counted _ c _ _ | shown _ c _ _ | record _ c _ (.output _) => some c
  | host _ | record _ _ _ (.start _ _) | record _ _ _ (.exit _) => none

/-- What a thread does. -/
def ThreadEffects (t : τ) : ChildThread κ γ → List (ChildEvent κ γ τ) → Prop
  | .capture c stream reads, l =>
    ∃ rows, List.Forall₂ (LineEffects children t c)
      ((splitLines reads.flatten).map (lineOf children c stream)) rows ∧ l = rows.flatten
  | .calls _, l => ∀ e ∈ l, ChildEvent.child? e = none

theorem writeRecord_aside (c : γ) (k : κ) (payloadBytes : Nat) (payload : UInt64 → List UInt8)
    (kind : RecordKind) (truncated : Bool) {r : ChildRecord} (hr : ∀ line, r ≠ .output line) :
    ChildDoes t (writeRecord lg c k payloadBytes payload kind truncated r) fun _ l =>
      ∀ e ∈ l, ChildEvent.child? e = none := by
  refine (writeRecord_does lg c k payloadBytes payload kind truncated r).mono fun _ l hl => ?_
  intro e he
  obtain rfl | rfl := hl
  · rw [List.mem_singleton.mp he]
    cases r with
    | output line => exact absurd rfl (hr line)
    | start | exit => exact rfl
  · rw [List.mem_singleton.mp he]
    rfl

theorem onHost_aside {α : Type} (x : HostCode κ α) :
    ChildDoes (γ := γ) t (onHost x) fun _ l => ∀ e ∈ l, ChildEvent.child? e = none := by
  have hany : HostDoes t x fun _ _ => True := by
    induction x with
    | ret a => exact trivial
    | op i next ih => exact fun r => ih r
  refine (onHost_does hany).mono fun _ l hl => ?_
  obtain ⟨l', -, rfl⟩ := hl
  intro e he
  obtain ⟨e', -, rfl⟩ := List.mem_map.mp he
  rfl

theorem call_aside (x : ChildCall κ γ) :
    ChildDoes t (call lg children x) fun _ l => ∀ e ∈ l, ChildEvent.child? e = none := by
  have hnothing : ChildDoes (κ := κ) (γ := γ) t (pure ()) fun _ l => ∀ e ∈ l, ChildEvent.child? e = none :=
    fun _ he => absurd he List.not_mem_nil
  cases x with
  | spawn c pid argv =>
    refine Prog.Does.bind_of (onHost_aside currentCorrelation) fun scope l hl => ?_
    have hstart : ∀ correlationId, ChildDoes t (writeChildStart lg children c pid correlationId
        (startCommand argv).1 (startCommand argv).2) fun _ l => ∀ e ∈ l, ChildEvent.child? e = none := by
      intro correlationId
      unfold writeChildStart
      split
      · exact hnothing
      · exact writeRecord_aside lg c _ _ _ _ _ (by simp)
    refine Prog.Does.mono (hstart _) fun _ l' hl' e he => ?_
    exact (List.mem_append.mp he).elim (hl e) (hl' e)
  | reap c status =>
    show ChildDoes t (writeChildExit lg children c status) _
    unfold writeChildExit
    split
    · exact hnothing
    · exact writeRecord_aside lg c _ _ _ _ _ (by simp)
  | host x => exact onHost_aside x

theorem thread_does (x : ChildThread κ γ) :
    ChildDoes t (thread lg children x) fun _ => ThreadEffects children t x := by
  cases x with
  | capture c stream reads =>
    show ChildDoes t (captureLoop lg children c stream reads) _
    rw [captureLoop_eq]
    exact writeLines_does lg children c _
  | calls calls =>
    show ChildDoes t (callAll lg children calls) fun _ l => ∀ e ∈ l, ChildEvent.child? e = none
    induction calls with
    | nil => exact fun _ he => absurd he List.not_mem_nil
    | cons x calls ih =>
      refine Prog.Does.bind_of (call_aside lg children x) fun _ l hl => ih.mono fun _ l' hl' e he => ?_
      exact (List.mem_append.mp he).elim (hl e) (hl' e)

end Functions

/-- Every operation has some answer. -/
theorem answers (op : ChildOp κ γ) : Nonempty op.Answer := by
  cases op with
  | host op => exact op.answerable
  | publish k op c r => exact Op.answerable op
  | fetchAdd c counter line => exact ⟨()⟩
  | onLine c line => exact ⟨Interception.threw⟩

/-- **What every thread did**, the others being anywhere in theirs: a beginning of what it does,
and all of it when it has returned. -/
theorem threads_accounted [DecidableEq κ] [DecidableEq γ] [DecidableEq τ] {lg : κ → Logger τ}
    {children : γ → ChildCaptureState κ} {threads : τ → ChildThread κ γ}
    {start : ChildState κ γ τ} (hstart : start.trace = [])
    {p : Pool (ι := ChildOp κ γ) ChildOp.Answer τ (ChildState κ γ τ) Unit}
    (hrun : Reachable (sem lg children) ⟨start, fun t => thread lg children (threads t)⟩ p) (t : τ) :
    ∃ more, ThreadEffects children t (threads t) (p.shared.deeds t ++ more) ∧
      (p.prog t = .ret () → more = []) := by
  have hdoes := Prog.Does.reachable ChildState.deeds
    (Q := fun t _ l => ThreadEffects children t (threads t) l)
    (fun t i s r s' h => child_deeds_step h) (fun t => ?_) hrun t
  · cases hprog : p.prog t with
    | ret a =>
      rw [hprog] at hdoes
      exact ⟨[], hdoes, fun _ => rfl⟩
    | op i next =>
      rw [hprog] at hdoes
      obtain ⟨_, more, hmore⟩ := Prog.Does.exists_run hdoes answers
      exact ⟨more, hmore, fun h => by cases h⟩
  · have hnil : start.deeds t = [] := by
      unfold ChildState.deeds
      rw [hstart]
      rfl
    show (thread lg children (threads t)).Does _ fun _ l =>
      ThreadEffects children t (threads t) (start.deeds t ++ l)
    rw [hnil]
    exact thread_does lg children (threads t)

end Sub0Log.Child
