import Sub0Log.Producer.Invariant

/-!
# What a thread knows, and one rule per operation

Between its steps a thread knows three things nobody else can change (`Env`): its
history `h`, its writer cache, and the memory of its own chunks. Its assertions are made
of these.

* `Held h` — all its chunks are quiet.
* `Idle h` — so is its cache: if the cached writer is the Logger's and valid, it stands
  behind the last record of the chunk claimed last. This is what holds between two calls.
* `Ready h c w` — the cached writer is `w`, of chunk `c`; reservations move it on.

The rules say what each operation does to assertions of this kind, and discharge the
invariant and the guarantee once and for all. Stores into a chunk have a module of their
own.
-/

open Bytes Interleaving

namespace Sub0Log.Producer

open Wire

variable {τ : Type}

/-! ### Histories -/

/-- The events of a history apart from the claims: what a caller can tell of. -/
def deeds (h : List (Event τ)) : List (Event τ) := h.filter fun e => e.claim?.isNone

theorem deeds_append (h h' : List (Event τ)) : deeds (h ++ h') = deeds h ++ deeds h' :=
  List.filter_append _ _

@[simp] theorem deeds_claimed (h : List (Event τ)) (t : τ) (c : Nat) :
    deeds (h ++ [.claimed t c]) = deeds h := by
  rw [deeds_append]
  exact List.append_nil _

/-- Claims decide no outcome. -/
theorem outcomes_deeds (h : List (Event τ)) : outcomes (deeds h) = outcomes h := by
  unfold outcomes deeds
  rw [List.filterMap_filter]
  refine congrArg (fun f => h.filterMap f) (funext fun e => ?_)
  cases e <;> rfl

theorem outcomes_append (h h' : List (Event τ)) :
    outcomes (h ++ h') = outcomes h ++ outcomes h' := List.filterMap_append

/-- What was done decides what became of the emits. -/
theorem outcomes_of_deeds {h h' new : List (Event τ)} (hdeeds : deeds h' = deeds h ++ new) :
    outcomes h' = outcomes h ++ outcomes new := by
  rw [← outcomes_deeds, hdeeds, outcomes_append, outcomes_deeds]

/-- The event of `countTruncationIf`. -/
def cutEvents (t : τ) (cut : Bool) : List (Event τ) := if cut then [.truncated t] else []

/-- Another event than a claim leaves the last claim what it was. -/
theorem LastClaim.concat {h : List (Event τ)} {c : Nat} (hlast : LastClaim h c) {e : Event τ}
    (he : e.claim? = none) : LastClaim (h ++ [e]) c := by
  have hclaims : claims (h ++ [e]) = claims h := by
    unfold claims
    rw [filterMap_concat, he]
    exact List.append_nil _
  exact ⟨hclaims ▸ hlast.mem, hclaims ▸ hlast.le⟩

namespace Setting

variable (S : Setting τ) [DecidableEq τ]

/-! ### Assertions -/

/-- Chunk `c` is quiet, with what `h` published in it. -/
def QuietIn (t : τ) (h : List (Event τ)) (c : Nat) (m : Mem) : Prop :=
  Quiet S.lg.segment c (S.lg.threadId t) (writtenIn S.lg.segment c h) m

structure Held (t : τ) (h : List (Event τ)) (s : State τ) : Prop where
  hist : s.hist t = h
  quiet : ∀ c ∈ claims h, S.QuietIn t h c s.mem

/-- The writer that stands behind the records of chunk `c`. -/
def writerAt (h : List (Event τ)) (c : Nat) : ChunkWriter where
  body := S.lg.segment.bodyBase c
  size := S.lg.segment.capacity
  offset := sizes (S.lg.segment.entries (writtenIn S.lg.segment c h))
  sequence := UInt16.ofNat (S.lg.segment.entries (writtenIn S.lg.segment c h)).length

/-- The Logger's own cache entry. -/
def cacheOf (w : ChunkWriter) : WriterCache := ⟨S.lg.address, S.lg.segment.generation, w⟩

structure Idle (t : τ) (h : List (Event τ)) (s : State τ) : Prop extends S.Held t h s where
  cache : (s.caches t).owner = S.lg.address →
    (s.caches t).generation = S.lg.segment.generation → (s.caches t).writer.valid = true →
    ∃ c, LastClaim h c ∧ (s.caches t).writer = S.writerAt h c

structure Ready (t : τ) (h : List (Event τ)) (c : Nat) (w : ChunkWriter) (s : State τ) : Prop
    extends S.Held t h s where
  last : LastClaim h c
  cache : s.caches t = S.cacheOf w

variable {S} {t : τ} {h : List (Event τ)} {c : Nat} {s s' : State τ} {w : ChunkWriter}

theorem Held.env (hP : S.Held t h s) (henv : S.Env t s s') : S.Held t h s' := by
  refine ⟨henv.hist.trans hP.hist, fun c hc => (hP.quiet c hc).congr S.sound fun x hx => ?_⟩
  exact henv.mem c (by rwa [hP.hist]) x hx

theorem held_stable : S.Stable t (S.Held t h) := fun _ _ henv hP => hP.env henv

theorem idle_stable : S.Stable t (S.Idle t h) := by
  intro s s' henv hP
  refine ⟨hP.toHeld.env henv, ?_⟩
  rw [henv.cache]
  exact hP.cache

theorem ready_stable : S.Stable t (S.Ready t h c w) := fun _ _ henv hP =>
  ⟨hP.toHeld.env henv, hP.last, henv.cache.trans hP.cache⟩

/-- An event that is neither a claim nor a publication leaves the chunks quiet. -/
theorem Held.concat (hP : S.Held t h s) {e : Event τ} (hhist : s'.hist t = s.hist t ++ [e])
    (hmem : s'.mem = s.mem) (hclaim : e.claim? = none)
    (hcommit : ∀ c, e.writtenIn? S.lg.segment c = none) : S.Held t (h ++ [e]) s' := by
  refine ⟨by rw [hhist, hP.hist], fun c hc => ?_⟩
  have hclaims : claims (h ++ [e]) = claims h := by
    unfold claims
    rw [filterMap_concat, hclaim]
    exact List.append_nil _
  have hwritten : writtenIn S.lg.segment c (h ++ [e]) = writtenIn S.lg.segment c h := by
    unfold writtenIn
    rw [filterMap_concat, hcommit]
    exact List.append_nil _
  rw [hclaims] at hc
  unfold QuietIn
  rw [hwritten, hmem]
  exact hP.quiet c hc

/-- Reservations that were all used up leave the writer where the next call expects it. -/
theorem Ready.idle (hP : S.Ready t h c (S.writerAt h c) s) : S.Idle t h s := by
  refine ⟨hP.toHeld, fun _ _ _ => ⟨c, hP.last, ?_⟩⟩
  rw [hP.cache]
  rfl

/-- `Idle` after an event that is neither a claim nor a publication. -/
theorem Idle.concat (hP : S.Idle t h s) {e : Event τ} (hhist : s'.hist t = s.hist t ++ [e])
    (hmem : s'.mem = s.mem) (hcaches : s'.caches = s.caches) (hclaim : e.claim? = none)
    (hcommit : ∀ c, e.writtenIn? S.lg.segment c = none) : S.Idle t (h ++ [e]) s' := by
  refine ⟨hP.toHeld.concat hhist hmem hclaim hcommit, ?_⟩
  rw [hcaches]
  intro howner hgeneration hvalid
  obtain ⟨c, hlast, hwriter⟩ := hP.cache howner hgeneration hvalid
  refine ⟨c, hlast.concat hclaim, hwriter.trans ?_⟩
  have hwritten : writtenIn S.lg.segment c (h ++ [e]) = writtenIn S.lg.segment c h := by
    unfold writtenIn
    rw [filterMap_concat, hcommit]
    exact List.append_nil _
  unfold writerAt
  rw [hwritten]

/-! ### Definitions stay published -/

/-- No operation takes back what happened. -/
theorem trace_grows {lg : Logger τ} {op : Op} {r : op.Answer} (h : sem lg t op s r s') :
    s.trace <+: s'.trace := by
  cases op with
  | claimChunkIndex =>
    have hs : s' = (claimChunkIndex lg t s).2 := congrArg Prod.snd h
    rw [hs]
    unfold claimChunkIndex
    split
    · exact List.prefix_append _ _
    · split <;> exact List.prefix_rfl
  | loadKey | currentThreadId | loadCache | copyOrder =>
    rw [(show s' = s from h.2)]
  | monotonicNow => rw [(show s' = s from h)]
  | storeKey | storeCache | storeByte | storeLow32 =>
    rw [(show s' = _ from h)]
  | store64 | storeHigh32 | countDrop | countTruncation =>
    rw [(show s' = _ from h)]
    exact List.prefix_append _ _

/-- What a longer trace cannot undo still holds in the end. -/
theorem frame_of_trace {α : Type} {P F : State τ → Prop} {x : Code α} {Q : α → State τ → Prop}
    (hF : ∀ s s', s.trace <+: s'.trace → F s → F s') (hx : S.Meets t P x Q) :
    S.Meets t (fun s => P s ∧ F s) x fun a s => Q a s ∧ F s :=
  Spec.Triple.frame (fun s s' henv => hF s s' henv.trace)
    (fun _ s _ s' hsem => hF s s' (trace_grows hsem)) hx

/-- A definition that was published is still published in the end. -/
theorem frame_defined {α : Type} {P : State τ → Prop} {x : Code α} {Q : α → State τ → Prop}
    (id : UInt64) (hx : S.Meets t P x Q) :
    S.Meets t (fun s => P s ∧ s.Defined S.lg id) x fun a s => Q a s ∧ s.Defined S.lg id :=
  frame_of_trace (fun _ _ htrace hdefined => hdefined.mono htrace) hx

/-! ### Operations that change nothing -/

variable {P : State τ → Prop}

/-- An operation that only answers. -/
theorem meets_of_answer {op : Op} {Q : op.Answer → State τ → Prop} (hP : S.Stable t P)
    (hop : ∀ s r s', S.Inv s → P s → sem S.lg t op s r s' → s' = s ∧ Q r s) :
    S.Meets t P (Prog.perform op) Q := by
  refine Spec.Triple.op hP fun s r s' hinv hpre hsem => ?_
  obtain ⟨rfl, hQ⟩ := hop s r s' hinv hpre hsem
  exact ⟨hinv, fun t' _ => S.spec.env_refl t' s', hQ⟩

theorem loadKey_meets (hP : S.Stable t P) (id : UInt64) :
    S.Meets t P (loadKey id) fun key s => (key = s.keys id ∧
      (key = S.lg.segment.announceKey → s.Defined S.lg id)) ∧ P s :=
  meets_of_answer hP fun _ _ _ hinv hpre hsem =>
    ⟨hsem.2, ⟨hsem.1, fun heq => hinv.naming.announced id (hsem.1.symm.trans heq)⟩,
      hpre⟩

theorem currentThreadId_meets (hP : S.Stable t P) :
    S.Meets t P currentThreadId fun id s => id = S.lg.threadId t ∧ P s :=
  meets_of_answer hP fun _ _ _ _ hpre hsem => ⟨hsem.2, hsem.1, hpre⟩

theorem monotonicNow_meets (hP : S.Stable t P) : S.Meets t P monotonicNow fun _ => P :=
  meets_of_answer hP fun _ _ _ _ hpre hsem => ⟨hsem, hpre⟩

theorem loadCache_meets (hP : S.Stable t P) :
    S.Meets t P loadCache fun cache s => cache = s.caches t ∧ P s :=
  meets_of_answer hP fun _ _ _ _ hpre hsem => ⟨hsem.2, hsem.1, hpre⟩

theorem copyOrder_meets (hP : S.Stable t P) (n : Nat) :
    S.Meets t P (copyOrder n) fun order s => List.Perm order (List.range n) ∧ P s :=
  meets_of_answer hP fun _ _ _ _ hpre hsem => ⟨hsem.2, hsem.1, hpre⟩

/-! ### Caches and keys -/

theorem storeCache_meets (hP : S.Stable t P) {cache : WriterCache} {Q : State τ → Prop}
    (hQ : ∀ s, P s → Q { s with caches := Function.update s.caches t cache }) :
    S.Meets t P (storeCache cache) fun _ => Q := by
  refine Spec.Triple.op hP fun s r s' hinv hpre hsem => ?_
  obtain rfl : s' = { s with caches := Function.update s.caches t cache } := hsem
  refine ⟨hinv.of_caches _, guar_of hinv.layout (fun t' hne => Function.update_of_ne hne _ _)
    ⟨[], (List.append_nil _).symm, fun e he => by cases he⟩ (fun _ _ => rfl) (fun _ => id),
    hQ s hpre⟩

/-- The key that is stored is the segment's own. -/
theorem storeKey_meets (hP : S.Stable t P) {id : UInt64} {Q : State τ → Prop}
    (hdefined : ∀ s, P s → s.Defined S.lg id)
    (hQ : ∀ s, P s → Q { s with keys := Function.update s.keys id S.lg.segment.announceKey }) :
    S.Meets t P (storeKey id S.lg.segment.announceKey) fun _ => Q := by
  refine Spec.Triple.op hP fun s r s' hinv hpre hsem => ?_
  obtain rfl : s' = { s with
    keys := Function.update s.keys id S.lg.segment.announceKey } := hsem
  refine ⟨hinv.of_key (hdefined s hpre), guar_of hinv.layout (fun _ _ => rfl)
    ⟨[], (List.append_nil _).symm, fun e he => by cases he⟩ (fun _ _ => rfl) ?_, hQ s hpre⟩
  intro id' hkey
  show Function.update s.keys id S.lg.segment.announceKey id' = S.lg.segment.announceKey
  by_cases heq : id' = id
  · rw [heq, Function.update_self]
  · rw [Function.update_of_ne heq, hkey]

/-! ### Counters -/

/-- The count of a drop; one of an emit is its outcome. -/
theorem countDrop_meets {emit : Option Emit}
    (hnoted : emit = none → ¬S.OnlyEmits)
    (hfollows : ∀ e, emit = some e →
      S.lg.Follows (S.emits t) (outcomes h ++ [.dropped e])) :
    S.Meets t (S.Idle t h) (countDrop emit) fun _ => S.Idle t (h ++ [.dropped t emit]) := by
  refine Spec.Triple.op idle_stable fun s r s' hinv hpre hsem => ?_
  obtain rfl : s' = { s with
      dropped := (s.dropped + 1) % S.lg.counterWrap
      trace := s.trace ++ [.dropped t emit] } := hsem
  refine ⟨hinv.of_count rfl rfl rfl rfl rfl (fun _ _ _ h => by cases h) (fun hnone => ?_) ?_ rfl rfl,
    guar_of hinv.layout (fun _ _ => rfl) ⟨_, rfl, fun e he => ?_⟩ (fun _ _ => rfl) (fun _ => id),
    hpre.concat (State.hist_concat_self rfl rfl) rfl rfl rfl fun _ => rfl⟩
  · cases emit with
    | none => exact absurd rfl hnone
    | some e =>
      have hf := hfollows e rfl
      rw [show (Event.dropped t (some e)).thread = t from rfl, hpre.hist]
      unfold outcomes at hf ⊢
      rw [filterMap_concat]
      exact hf
  · intro honly t' heq
    injection heq with _ hnone
    exact hnoted hnone honly
  · rw [List.mem_singleton.mp he]
    rfl

theorem countTruncation_meets :
    S.Meets t (S.Idle t h) countTruncation fun _ => S.Idle t (h ++ [.truncated t]) := by
  refine Spec.Triple.op idle_stable fun s r s' hinv hpre hsem => ?_
  obtain rfl : s' = { s with
      truncated := (s.truncated + 1) % S.lg.counterWrap
      trace := s.trace ++ [.truncated t] } := hsem
  refine ⟨hinv.of_count rfl rfl rfl rfl rfl (fun _ _ _ h => by cases h)
      (fun hnone => absurd rfl hnone) (fun _ _ heq => by cases heq) rfl rfl,
    guar_of hinv.layout (fun _ _ => rfl) ⟨_, rfl, fun e he => ?_⟩ (fun _ _ => rfl) (fun _ => id),
    hpre.concat (State.hist_concat_self rfl rfl) rfl rfl rfl fun _ => rfl⟩
  rw [List.mem_singleton.mp he]
  rfl

theorem countTruncationIf_meets (cut : Bool) :
    S.Meets t (S.Idle t h) (Logger.countTruncationIf cut) fun _ =>
      S.Idle t (h ++ cutEvents t cut) := by
  cases cut with
  | true => exact countTruncation_meets
  | false =>
    refine Spec.Triple.pure fun s _ hP => ?_
    show S.Idle t (h ++ []) s
    rwa [List.append_nil]

end Setting

end Sub0Log.Producer
