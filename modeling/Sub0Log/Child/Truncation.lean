import Sub0Log.Abi.Payload
import Sub0Log.Abi.Truncation
import Sub0Log.Child.Effects
import Sub0Log.Child.Runs

/-!
# The truncation counter and the flags in the segment

Emits, definitions, declared subsystems and the Messages of plugins are counted when their head
word says they were cut. `writeChildStart` and `writeChildOutputLine` set the flag in the same
way, and do not call `countTruncation`.

So in every interleaving of all these writers the counter of a Logger is behind the flags in its
segment by the number of records about children that were cut: **`truncations_agree_iff`**.
-/

open Bytes Interleaving

namespace Sub0Log.Child

open Wire Producer Abi

variable {κ γ τ : Type}

/-! ### Notes -/

/-- The record was cut. -/
def ChildRecord.truncated : ChildRecord → Bool
  | start _ truncated => truncated
  | output line => line.truncated
  | exit _ => false

section Notes

variable [DecidableEq κ]

/-- What is noted of an operation, on Logger `k`. -/
def ChildOp.headNotes (k : κ) : (op : ChildOp κ γ) → op.Answer → List HeadNote
  | .host op, r => op.headNotes k r
  | .publish k' op _ rec, r =>
    if k' = k then op.headNotes r ++ markIf .cutChild rec.truncated else []
  | .fetchAdd _ _ _, _ | .onLine _ _, _ => []

/-- The code leaves such notes about Logger `k`. -/
abbrev ChildNotes {α : Type} (k : κ) (x : ChildCode κ γ α) (Q : α → List HeadNote → Prop) : Prop :=
  x.Does (ChildOp.headNotes k) Q

abbrev ChildAccounted {α : Type} (k : κ) (x : ChildCode κ γ α) : Prop :=
  ChildNotes k x fun _ => Paired

variable {k : κ}

theorem onHost_notes {α : Type} {x : HostCode κ α} {Q : α → List HeadNote → Prop}
    (hx : HostNotes k x Q) : ChildNotes (γ := γ) k (onHost x) Q := by
  induction x generalizing Q with
  | ret a => exact hx
  | op i next ih => exact fun r => ih r (hx r)

theorem onProducer_unnoted {α : Type} {x : Code α} (k' : κ) (hx : Producer.Notes x fun _ l => l = []) :
    ChildNotes (γ := γ) k (onProducer k' x) fun _ l => l = [] :=
  onHost_notes (onLogger_unnoted k' hx)

theorem ChildAccounted.bind {α β : Type} {x : ChildCode κ γ α} {f : α → ChildCode κ γ β}
    (hx : ChildAccounted k x) (hf : ∀ a, ChildAccounted k (f a)) : ChildAccounted k (x >>= f) :=
  Prog.Does.bind_of hx fun a _ hl => (hf a).mono fun _ _ hl' => hl.append hl'

/-! ### Records about children -/

variable (lg : κ → Logger τ) (children : γ → ChildCaptureState κ)

/-- The flag is set for a record that was cut, and nothing is counted. -/
theorem commitRecord_accounted (c : γ) (k' : κ) (slot : Reservation) {kind : RecordKind}
    (hkind : kind.Named) (payloadBytes : Nat) (r : ChildRecord) :
    ChildAccounted k (commitRecord lg c k' slot kind r.truncated payloadBytes r) := by
  suffices hnotes : ChildNotes k (commitRecord lg c k' slot kind r.truncated payloadBytes r)
      fun _ l => l = if k' = k then headNotes (lg k').split
        (RecordHead.mk (UInt16.ofNat payloadBytes) kind
          (if r.truncated then cFlagTruncated else 0) slot.sequence).pack ++
            markIf .cutChild r.truncated else [] by
    refine hnotes.mono fun _ l hl => ?_
    rw [hl]
    split
    · exact paired_record (Or.inr rfl) hkind (truncated_read r.truncated)
    · exact Paired.nil
  unfold commitRecord headNotes
  by_cases hsplit : (lg k').split = true
  · simp only [if_pos hsplit]
    refine Prog.Does.bind_of (onHost_notes (onLogger_notes k'
      (Prog.Does.perform (Op.storeLow32 slot.headWord _)))) fun _ l hl => ?_
    obtain ⟨l', rfl, rfl⟩ := hl
    refine Prog.Does.mono (Prog.Does.perform
      (ChildOp.publish k' (.storeHigh32 slot.headWord _ none) c r)) fun _ l hl => ?_
    rw [hl]
    show _ ++ (if k' = k then _ else _) = _
    split <;> rfl
  · simp only [if_neg hsplit]
    exact Prog.Does.perform (ChildOp.publish k' (.store64 slot.headWord _ none) c r)

theorem writeRecord_accounted (c : γ) (k' : κ) (payloadBytes : Nat)
    (payload : UInt64 → List UInt8) {kind : RecordKind} (hkind : kind.Named) (r : ChildRecord) :
    ChildAccounted k (writeRecord lg c k' payloadBytes payload kind r.truncated r) := by
  refine Prog.Does.after_silent (onProducer_unnoted k' (reserveRecord_unnoted _ none)) fun slot => ?_
  cases slot with
  | none => exact Paired.nil
  | some slot =>
    refine Prog.Does.after_silent (onProducer_unnoted k' (Prog.Does.perform _)) fun monoNs => ?_
    refine Prog.Does.after_silent (onProducer_unnoted k' (copyBytes_plain _ _).unnoted) fun _ => ?_
    exact commitRecord_accounted lg c k' slot hkind payloadBytes r

/-- `writeChildStart`. -/
theorem writeChildStart_accounted (c : γ) (pid correlationId : UInt64) (command : List UInt8)
    (commandTruncated : Bool) :
    ChildAccounted k (writeChildStart lg children c pid correlationId command commandTruncated) := by
  unfold writeChildStart
  cases (children c).logger with
  | none => exact Paired.nil
  | some k' =>
    exact writeRecord_accounted lg c k' _ _ (fun _ h => by cases h) (.start _ _)

/-- `writeChildExit`. -/
theorem writeChildExit_accounted (c : γ) (status : ExitStatus) :
    ChildAccounted k (writeChildExit lg children c status) := by
  unfold writeChildExit
  cases (children c).logger with
  | none => exact Paired.nil
  | some k' => exact writeRecord_accounted lg c k' _ _ (fun _ h => by cases h) (.exit status)

theorem intercept_unnoted (c : γ) (line : ChildLine) :
    ChildNotes k (intercept children c line) fun _ l => l = [] := by
  unfold intercept
  split
  · exact Prog.Does.after_silent (Prog.Does.perform _) fun _ => rfl
  · exact rfl

/-- `writeChildOutputLine`. -/
theorem writeChildOutputLine_accounted (c : γ) (line : ChildLine) :
    ChildAccounted k (writeChildOutputLine lg children c line) := by
  have hcounter : ∀ counter, ChildNotes k (fetchAdd c counter line) fun _ l => l = [] :=
    fun _ => Prog.Does.perform _
  have hcounted : ∀ counter, ChildAccounted k (fetchAdd c counter line) := fun counter =>
    (hcounter counter).mono fun _ l hl => by
      rw [hl]
      exact Paired.nil
  have hcut : ChildNotes k (countTruncatedLine c line) fun _ l => l = [] := by
    unfold countTruncatedLine
    split
    · exact hcounter _
    · exact rfl
  refine Prog.Does.after_silent (hcounter .capturedLines) fun _ => ?_
  refine Prog.Does.after_silent hcut fun _ => ?_
  refine Prog.Does.after_silent (intercept_unnoted children c line) fun action => ?_
  split
  · exact hcounted _
  · cases (children c).logger with
    | none => exact hcounted _
    | some k' => exact writeRecord_accounted lg c k' _ _ (fun _ h => by cases h) (.output line)

theorem writeLines_accounted (c : γ) (lines : List ChildLine) :
    ChildAccounted k (writeLines lg children c lines) := by
  induction lines with
  | nil => exact Paired.nil
  | cons line lines ih =>
    exact ChildAccounted.bind (writeChildOutputLine_accounted lg children c line) fun _ => ih

/-! ### Threads -/

/-- Code of the host that is one of the writers: an emit, a definition or a declared subsystem on
a Logger, or a call of the table. -/
def Writer (x : HostCode κ Unit) : Prop :=
  (∃ k c, x = onLogger k ((lg k).call c)) ∨ ∃ c, x = Abi.call lg c

/-- The thread does nothing but write through these, spawn, reap and capture. -/
def Writes : ChildThread κ γ → Prop
  | .capture _ _ _ => True
  | .calls calls => ∀ x, ChildCall.host x ∈ calls → Writer lg x

theorem call_accounted {x : ChildCall κ γ} (hx : ∀ code, x = .host code → Writer lg code) :
    ChildAccounted k (call lg children x) := by
  cases x with
  | spawn c pid argv =>
    exact Prog.Does.after_silent (onHost_notes (Prog.Does.perform _)) fun scope =>
      writeChildStart_accounted lg children c pid _ _ _
  | reap c status => exact writeChildExit_accounted lg children c status
  | host code =>
    refine onHost_notes ?_
    obtain ⟨k', c, rfl⟩ | ⟨c, rfl⟩ := hx code rfl
    · exact onLogger_accounted k' (Producer.call_accounted c)
    · exact host_accounted lg c

theorem thread_accounted {x : ChildThread κ γ} (hx : Writes lg x) :
    ChildAccounted k (thread lg children x) := by
  cases x with
  | capture c stream reads =>
    show ChildAccounted k (captureLoop lg children c stream reads)
    rw [captureLoop_eq]
    exact writeLines_accounted lg children c _
  | calls calls =>
    show ChildAccounted k (callAll lg children calls)
    induction calls with
    | nil => exact Paired.nil
    | cons x calls ih =>
      refine ChildAccounted.bind (call_accounted lg children fun code heq => ?_) fun _ =>
        ih fun code hmem => hx code (List.mem_cons_of_mem _ hmem)
      subst heq
      exact hx code List.mem_cons_self

end Notes

/-! ### Every run -/

section Runs

variable [DecidableEq κ] [DecidableEq γ] [DecidableEq τ] {lg : κ → Logger τ}
  {children : γ → ChildCaptureState κ} {k : κ}

omit [DecidableEq γ] in
theorem OnHost.truncated {t : τ} {op : HostOp κ} {r : op.Answer} {s s' : ChildState κ γ τ}
    {after : List (ChildEvent κ γ τ)} (h : OnHost lg t op s r after s') {n : Nat}
    (hn : (s.host.logs k).truncated = n % (lg k).counterWrap) :
    (s'.host.logs k).truncated =
      (n + (op.headNotes k r).countP HeadNote.isCounted) % (lg k).counterWrap := by
  obtain ⟨v, new, hsem, -, rfl⟩ := h
  exact host_truncated hsem hn

theorem child_truncated {t : τ} {op : ChildOp κ γ} {r : op.Answer} {s s' : ChildState κ γ τ}
    (h : sem lg children t op s r s') {n : Nat}
    (hn : (s.host.logs k).truncated = n % (lg k).counterWrap) :
    (s'.host.logs k).truncated =
      (n + (op.headNotes k r).countP HeadNote.isCounted) % (lg k).counterWrap := by
  cases op with
  | host op => exact OnHost.truncated (show OnHost lg t op s r [] s' from h) hn
  | publish k' op c rec =>
    have hhost := OnHost.truncated
      (show OnHost lg t (.logger k' op) s r [.record t c k' rec] s' from h) hn
    have hmark : (markIf HeadNote.cutChild rec.truncated).countP HeadNote.isCounted = 0 := by
      cases rec.truncated <;> rfl
    have hnotes : ((ChildOp.publish k' op c rec).headNotes k r).countP HeadNote.isCounted =
        ((HostOp.logger k' op).headNotes k r).countP HeadNote.isCounted := by
      show (if k' = k then op.headNotes r ++ markIf .cutChild rec.truncated else []).countP _ =
        (if k' = k then op.headNotes r else []).countP _
      split
      · rw [List.countP_append, hmark, Nat.add_zero]
      · rfl
    rw [hnotes]
    exact hhost
  | fetchAdd c counter line =>
    obtain rfl : s' = _ := h
    exact hn
  | onLine c line =>
    obtain rfl : s' = _ := h.2
    exact hn

/-- The counter is the number of counts, in every reachable state. -/
theorem truncated_counts {start : ChildState κ γ τ} (hstart : (start.host.logs k).truncated = 0)
    {prog : τ → ChildCode κ γ Unit}
    {p : Pool (ι := ChildOp κ γ) ChildOp.Answer τ (ChildState κ γ τ × List (τ × HeadNote)) Unit}
    (hrun : Reachable (noting (ChildOp.headNotes k) (sem lg children)) ⟨(start, []), prog⟩ p) :
    (p.shared.1.host.logs k).truncated = countedRecords p.shared.2 % (lg k).counterWrap := by
  refine noting_invariant (P := fun s notes =>
    (s.host.logs k).truncated = countedRecords notes % (lg k).counterWrap) ?_ ?_ hrun
  · intro t op r s s' notes hsem hn
    rw [countedRecords_append]
    exact child_truncated hsem hn
  · show (start.host.logs k).truncated = 0 % (lg k).counterWrap
    rw [hstart, Nat.zero_mod]

/-- **Flags and counts.** Of every run of the writers from a new Logger, when all have returned:
the counter is the number of committed records with the flag, modulo its width, exactly when no
record about a child was committed cut; or as many as the counter is wide. -/
theorem truncations_agree_iff {threads : τ → ChildThread κ γ} (hwrites : ∀ t, Writes lg (threads t))
    {start : ChildState κ γ τ} (hstart : (start.host.logs k).truncated = 0)
    {p : Pool (ι := ChildOp κ γ) ChildOp.Answer τ (ChildState κ γ τ × List (τ × HeadNote)) Unit}
    (hrun : Reachable (noting (ChildOp.headNotes k) (sem lg children))
      ⟨(start, []), fun t => thread lg children (threads t)⟩ p)
    (hdone : p.Finished) :
    (p.shared.1.host.logs k).truncated = flaggedRecords p.shared.2 % (lg k).counterWrap ↔
      (lg k).counterWrap ∣ cutChildRecords p.shared.2 := by
  have hpaired : ∀ t, Paired (notesOf t p.shared.2) := by
    intro t
    obtain ⟨a, hreturned⟩ := hdone t
    exact Prog.Does.notes (fun t => thread_accounted lg children (hwrites t)) hrun hreturned
  rw [truncated_counts hstart hrun, flaggedRecords_eq hpaired]
  constructor
  · intro heq
    have hmod : countedRecords p.shared.2 + 0 ≡
        countedRecords p.shared.2 + cutChildRecords p.shared.2 [MOD (lg k).counterWrap] := heq
    exact (Nat.modEq_zero_iff_dvd.mp (Nat.ModEq.add_left_cancel' _ hmod).symm)
  · intro hdvd
    have hzero : cutChildRecords p.shared.2 ≡ 0 [MOD (lg k).counterWrap] :=
      Nat.modEq_zero_iff_dvd.mpr hdvd
    exact (hzero.add_left (countedRecords p.shared.2)).symm

end Runs

/-! One thread of a process with one Logger and one child. -/

/-- The thread has done this, alone, with its notes. -/
def notedRun (x : ChildThread Unit Unit) :
    Pool (ι := ChildOp Unit Unit) ChildOp.Answer Unit
      (ChildState Unit Unit Unit × List (Unit × HeadNote)) Unit :=
  ⟨((thread wideHost plainChild x).exec
      (noted (ChildOp.headNotes ()) (answer wideHost plainChild ()) ())
      (⟨wideStart, fun _ _ => 0, []⟩, [])).2, fun _ => .ret ()⟩

theorem notedRun_reachable (x : ChildThread Unit Unit) :
    Reachable (noting (ChildOp.headNotes ()) (sem wideHost plainChild))
      ⟨(⟨wideStart, fun _ _ => 0, []⟩, []), fun _ => thread wideHost plainChild x⟩ (notedRun x) := by
  have hsem : ∀ i s, noting (ChildOp.headNotes ()) (sem wideHost plainChild) () i s
      (noted (ChildOp.headNotes ()) (answer wideHost plainChild ()) () i s).1
      (noted (ChildOp.headNotes ()) (answer wideHost plainChild ()) () i s).2 :=
    noted_sem (sem_answer wideHost plainChild ())
  have hrun := @exec_reachable _ _ _ _ Unit _ _ _ _ hsem
    ⟨(⟨wideStart, fun _ _ => 0, []⟩, []), fun _ => thread wideHost plainChild x⟩
  refine (congrArg (Reachable _ _) ?_).mp hrun.reachable
  unfold notedRun
  exact congrArg _ (funext fun _ => Function.update_self _ _ _)

/-- Two lines that are short enough. -/
theorem truncations_agree_iff_short :
    ((notedRun (.capture () .stdout [[97, 98, 13], [10, 99]])).shared.1.host.logs ()).truncated =
        flaggedRecords (notedRun (.capture () .stdout [[97, 98, 13], [10, 99]])).shared.2 %
          (wideHost ()).counterWrap ↔
      (wideHost ()).counterWrap ∣
        cutChildRecords (notedRun (.capture () .stdout [[97, 98, 13], [10, 99]])).shared.2 :=
  @truncations_agree_iff _ _ _ _ _ _ wideHost plainChild ()
    (fun _ => .capture () .stdout [[97, 98, 13], [10, 99]]) (fun _ => trivial) _ rfl _ (notedRun_reachable _) fun _ => ⟨(), rfl⟩

/-- A child that is spawned by a command of 513 bytes. -/
def longSpawn : ChildThread Unit Unit := .calls [.spawn () 7 [List.replicate 513 97]]

/-- Its `ChildStart` is in the segment with the flag, and the counter of the Logger is zero. -/
theorem truncations_disagree :
    ¬ ∀ p, Reachable (noting (ChildOp.headNotes ()) (sem wideHost plainChild))
        ⟨(⟨wideStart, fun _ _ => 0, []⟩, []), fun _ => thread wideHost plainChild longSpawn⟩ p →
      p.Finished → (p.shared.1.host.logs ()).truncated = flaggedRecords p.shared.2 := by
  intro hall
  have hagree := hall (notedRun longSpawn) (notedRun_reachable longSpawn) fun _ => ⟨(), rfl⟩
  have hcounter : ((notedRun longSpawn).shared.1.host.logs ()).truncated = 0 := by decide +kernel
  have hflagged : flaggedRecords (notedRun longSpawn).shared.2 = 1 := by decide +kernel
  rw [hcounter, hflagged] at hagree
  cases hagree

end Sub0Log.Child
