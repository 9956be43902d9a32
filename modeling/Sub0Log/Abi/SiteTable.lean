import Sub0Log.Abi.Runs
import Sub0Log.Library.ProbeTable

/-!
# The table of announced sites

`SiteAnnounceTable` on its own: any threads call `record` and `generationFor`, and their loads,
stores and compare-exchanges interleave one by one. The table's memory is sequentially
consistent here; that a generation may be read late is the host's affair (`Abi.sem`).

A call is noted when it begins and when it returns (`TableOp.invoke`, `TableOp.finish`), and
every operation notes what it did. That makes a run of the code a run of `ProbeTable`
(`table_run`): the slots of a site's path are those that `nextSlot` leads to from `probeStart`,
`cProbeLimit` of them. **`siteTable_linearises`** states for the code what holds there.
-/

open Interleaving ProbeTable

namespace Sub0Log.Abi

open SiteAnnounceTable

/-! ### Calls -/

/-- The slot of a site's `j`-th probe. -/
def probeSlot (siteId : UInt64) (j : ℕ) : UInt64 := nextSlot^[j] (probeStart siteId)

abbrev TableCall : Type := ProbeTable.Call UInt64 UInt64

abbrev TableEvent (τ : Type) : Type := ProbeTable.Event τ UInt64 UInt64 UInt64

/-- The table, the counter beside it, and what happened. -/
structure TableState (τ : Type) where
  siteIds : UInt64 → UInt64
  generations : UInt64 → UInt64
  siteTableExhausted : UInt64
  trace : List (TableEvent τ)

/-- The beginning of call `i`, one of its operations, its end. -/
inductive TableOp
  | invoke (i : ℕ)
  | table (i : ℕ) (op : HostOp Unit)
  | finish (i : ℕ) (result : Option UInt64)

def TableOp.Answer : TableOp → Type
  | table _ op => op.Answer
  | invoke _ | finish _ _ => Unit

/-- What an operation notes. -/
def TableOp.effects {τ : Type} (t : τ) : (op : TableOp) → op.Answer → List (TableEvent τ)
  | .invoke i, _ => [.invoked t i]
  | .table i (.loadSiteId slot), key => [.probed t i slot key]
  | .table i (.claimSiteId slot siteId), found => [.exchanged t i slot siteId found]
  | .table i (.loadGeneration slot), generation => [.loaded t i slot generation]
  | .table i (.storeGeneration slot generation), _ => [.stored t i slot generation]
  | .table i .countExhausted, _ => [.counted t i]
  | .table _ _, _ => []
  | .finish i result, _ => [.returned t i result]

/-- What the table's operations may answer and do; its functions perform no others. -/
def tableSem {τ : Type} : Sem TableOp.Answer τ (TableState τ) := fun t op s answer s' =>
  match op, answer with
  | .invoke i, _ => s' = { s with trace := s.trace ++ [.invoked t i] }
  | .table i (.loadSiteId slot), key =>
    key = s.siteIds slot ∧ s' = { s with trace := s.trace ++ [.probed t i slot key] }
  | .table i (.claimSiteId slot siteId), found =>
    found = s.siteIds slot ∧ s' = { s with
      siteIds := if s.siteIds slot = 0 then Function.update s.siteIds slot siteId else s.siteIds
      trace := s.trace ++ [.exchanged t i slot siteId found] }
  | .table i (.loadGeneration slot), generation =>
    generation = s.generations slot ∧
      s' = { s with trace := s.trace ++ [.loaded t i slot generation] }
  | .table i (.storeGeneration slot generation), _ => s' = { s with
      generations := Function.update s.generations slot generation
      trace := s.trace ++ [.stored t i slot generation] }
  | .table i .countExhausted, _ => s' = { s with
      siteTableExhausted := s.siteTableExhausted + 1
      trace := s.trace ++ [.counted t i] }
  | .table _ _, _ => False
  | .finish i result, _ => s' = { s with trace := s.trace ++ [.returned t i result] }

abbrev TableCode (α : Type) : Type := Prog TableOp.Answer α

/-- Code of the table, run for call `i`. -/
def onTable {α : Type} (i : ℕ) : HostCode Unit α → TableCode α
  | .ret a => .ret a
  | .op op next => .op (.table i op) fun r => onTable i (next r)

/-- One call. -/
def tableCall : TableCall → HostCode Unit (Option UInt64)
  | .record siteId generation => do
    record siteId generation
    pure none
  | .lookup siteId => do
    let generation ← generationFor siteId
    pure (some generation)

/-- A thread's calls, one after another, the first of them number `i`. -/
def tableThread : (i : ℕ) → List TableCall → TableCode Unit
  | _, [] => pure ()
  | i, c :: calls => do
    Prog.perform (TableOp.invoke i)
    let result ← onTable i (tableCall c)
    Prog.perform (TableOp.finish i result)
    tableThread (i + 1) calls

/-- An empty table. -/
def TableState.empty (τ : Type) : TableState τ := ⟨fun _ => 0, fun _ => 0, 0, []⟩

/-- Where a run starts. -/
def tablePool {τ : Type} (calls : τ → List TableCall) :
    Pool TableOp.Answer τ (TableState τ) Unit :=
  ⟨TableState.empty τ, fun t => tableThread 0 (calls t)⟩

/-! ### The steps of a call -/

section Deeds

variable {τ : Type} {t : τ} {i : ℕ}

/-- What code does whatever its operations answer, noted for thread `t`. -/
abbrev TableDoes {α : Type} (t : τ) (x : TableCode α) (Q : α → List (TableEvent τ) → Prop) :
    Prop := x.Does (TableOp.effects t) Q

theorem onTable_bind {α β : Type} (i : ℕ) (x : HostCode Unit α) (f : α → HostCode Unit β) :
    onTable i (x >>= f) = (onTable i x >>= fun a => onTable i (f a)) := by
  induction x with
  | ret a => rfl
  | op op next ih => exact congrArg (Prog.op _) (funext fun r => ih r)

theorem recordFrom_steps (siteId generation : UInt64) {tries j : ℕ}
    (htries : j + tries = cProbeLimit) :
    TableDoes t (onTable i (recordFrom siteId generation tries (probeSlot siteId j)))
      fun _ l => Recording probeSlot cProbeLimit t i siteId generation j l := by
  induction tries generalizing j with
  | zero =>
    obtain rfl : j = cProbeLimit := htries
    exact fun r => Recording.spent
  | succ tries ih =>
    have hj : j < cProbeLimit := by omega
    intro (found : UInt64)
    show TableDoes t (onTable i (if found = 0 ∨ found = siteId then _ else _)) _
    by_cases hfound : found = 0 ∨ found = siteId
    · rw [if_pos hfound]
      exact fun r => Recording.here hj hfound
    · rw [if_neg hfound]
      obtain ⟨hfull, hother⟩ := not_or.mp hfound
      have hnext : nextSlot (probeSlot siteId j) = probeSlot siteId (j + 1) :=
        (Function.iterate_succ_apply' nextSlot j _).symm
      rw [hnext]
      exact (ih (by omega)).mono fun _ l hl => Recording.next hj hfull hother hl

theorem generationFrom_steps (siteId : UInt64) {tries j : ℕ}
    (htries : j + tries = cProbeLimit) :
    TableDoes t (onTable i (generationFrom siteId tries (probeSlot siteId j)))
      fun generation l => Looking probeSlot cProbeLimit t i siteId j l generation := by
  induction tries generalizing j with
  | zero =>
    obtain rfl : j = cProbeLimit := htries
    exact fun r => Looking.spent
  | succ tries ih =>
    have hj : j < cProbeLimit := by omega
    intro (key : UInt64)
    show TableDoes t (onTable i (if key = siteId then _ else _)) _
    by_cases hkey : key = siteId
    · rw [if_pos hkey, hkey]
      exact fun generation => Looking.here hj
    rw [if_neg hkey]
    by_cases hzero : key = 0
    · rw [if_pos hzero, hzero]
      exact Looking.empty hj (hzero ▸ hkey)
    · rw [if_neg hzero]
      have hnext : nextSlot (probeSlot siteId j) = probeSlot siteId (j + 1) :=
        (Function.iterate_succ_apply' nextSlot j _).symm
      rw [hnext]
      exact (ih (by omega)).mono fun _ l hl => Looking.next hj hzero hkey hl

theorem tableCall_steps (c : TableCall) :
    TableDoes t (onTable i (tableCall c)) fun result l =>
      CallSteps probeSlot cProbeLimit t i c l result := by
  cases c with
  | record siteId generation =>
    rw [tableCall, onTable_bind]
    refine Prog.Does.bind_of (recordFrom_steps siteId generation (Nat.zero_add _)) fun _ l hl => ?_
    show CallSteps _ _ _ _ _ (l ++ []) none
    rw [List.append_nil]
    exact CallSteps.record hl
  | lookup siteId =>
    rw [tableCall, onTable_bind]
    refine Prog.Does.bind_of (generationFrom_steps siteId (Nat.zero_add _)) fun g l hl => ?_
    show CallSteps _ _ _ _ _ (l ++ []) (some g)
    rw [List.append_nil]
    exact CallSteps.lookup hl

theorem tableThread_steps (calls : List TableCall) :
    TableDoes t (tableThread i calls) fun _ (l : List (TableEvent τ)) =>
      ThreadSteps probeSlot cProbeLimit t i calls l := by
  induction calls generalizing i with
  | nil => exact ThreadSteps.done i
  | cons c calls ih =>
    refine Prog.Does.bind_of (Prog.Does.perform _) fun _ l hl => ?_
    subst hl
    refine Prog.Does.bind_of (tableCall_steps c) fun result body hbody => ?_
    refine Prog.Does.bind_of (Prog.Does.perform _) fun _ l hl => ?_
    subst hl
    refine ih.mono fun _ rest hrest => ?_
    exact ThreadSteps.call hbody hrest

end Deeds

/-! ### Runs -/

section Runs

variable {τ : Type} {s s' : TableState τ}

/-- An operation adds what it notes to the trace. -/
theorem table_trace {t : τ} {op : TableOp} {r : op.Answer} (h : tableSem t op s r s') :
    s'.trace = s.trace ++ op.effects t r := by
  cases op with
  | invoke i | finish i result => rw [(show s' = _ from h)]; rfl
  | table i op =>
    cases op with
    | loadSiteId | claimSiteId | loadGeneration => rw [(show s' = _ from h.2)]; rfl
    | storeGeneration | countExhausted => rw [(show s' = _ from h)]; rfl
    | _ => exact absurd h id

theorem table_tags {t : τ} {op : TableOp} {r : op.Answer} :
    ∀ e ∈ op.effects t r, e.tag.1 = t := by
  cases op with
  | invoke i | finish i result => exact fun e he => by rw [List.mem_singleton.mp he]; rfl
  | table i op =>
    cases op with
    | loadSiteId | claimSiteId | loadGeneration | storeGeneration | countExhausted =>
      exact fun e he => by rw [List.mem_singleton.mp he]; rfl
    | _ => exact fun e he => absurd he List.not_mem_nil

/-- The table holds what its history says. -/
structure Mirrors (s : TableState τ) : Prop where
  siteIds : ∀ slot, s.siteIds slot = keyAt s.trace slot
  generations : ∀ slot, s.generations slot = valueAt s.trace slot
  exhausted : s.siteTableExhausted = UInt64.ofNat (s.trace.countP Event.isCounted)
  sound : Sound s.trace

theorem mirrors_empty : Mirrors (TableState.empty τ) :=
  ⟨fun _ => rfl, fun _ => rfl, rfl, sound_nil⟩

/-- A step that changes neither the table nor the counter. -/
theorem Mirrors.note (h : Mirrors s) {e : TableEvent τ} (hfits : Fits s.trace e)
    (hclaim : ∀ slot, e.claim? slot = none) (hstored : ∀ slot, e.stored? slot = none)
    (hcounted : e.isCounted = false) : Mirrors { s with trace := s.trace ++ [e] } := by
  refine ⟨fun slot => ?_, fun slot => ?_, ?_, h.sound.concat hfits⟩
  · rw [keyAt_concat, hclaim slot]
    exact h.siteIds slot
  · rw [valueAt_concat, hstored slot]
    exact h.generations slot
  · show s.siteTableExhausted = _
    rw [List.countP_append, List.countP_singleton, hcounted]
    exact h.exhausted

/-- Every step keeps the table and its history together. -/
theorem Mirrors.step {t : τ} {op : TableOp} {r : op.Answer} (h : Mirrors s)
    (hsem : tableSem t op s r s') : Mirrors s' := by
  cases op with
  | invoke i | finish i result =>
    rw [(show s' = _ from hsem)]
    exact h.note trivial (fun _ => rfl) (fun _ => rfl) rfl
  | table i op =>
    cases op with
    | loadSiteId slot =>
      obtain ⟨hkey, rfl⟩ := hsem
      exact h.note (hkey.trans (h.siteIds slot)) (fun _ => rfl) (fun _ => rfl) rfl
    | loadGeneration slot =>
      obtain ⟨hvalue, rfl⟩ := hsem
      exact h.note (hvalue.trans (h.generations slot)) (fun _ => rfl) (fun _ => rfl) rfl
    | claimSiteId slot siteId =>
      obtain ⟨rfl, rfl⟩ := hsem
      refine ⟨fun slot' => ?_, fun slot' => ?_, ?_, h.sound.concat (h.siteIds slot)⟩
      · rw [keyAt_concat, ← h.siteIds]
        show (if s.siteIds slot = 0 then Function.update s.siteIds slot siteId else s.siteIds)
          slot' = (if slot = slot' ∧ s.siteIds slot = 0 then some siteId else none).getD _
        by_cases hzero : s.siteIds slot = 0
        · rw [if_pos hzero]
          by_cases hslot : slot = slot'
          · rw [if_pos ⟨hslot, hzero⟩, ← hslot, Function.update_self, Option.getD_some]
          · rw [if_neg fun hboth => hslot hboth.1, Function.update_of_ne (Ne.symm hslot),
              Option.getD_none]
        · rw [if_neg hzero, if_neg fun hboth => hzero hboth.2, Option.getD_none]
      · rw [valueAt_concat]
        exact h.generations slot'
      · show s.siteTableExhausted = _
        rw [List.countP_append]
        exact h.exhausted
    | storeGeneration slot generation =>
      rw [(show s' = _ from hsem)]
      refine ⟨fun slot' => ?_, fun slot' => ?_, ?_, h.sound.concat trivial⟩
      · rw [keyAt_concat]
        exact h.siteIds slot'
      · rw [valueAt_concat, ← h.generations]
        show Function.update s.generations slot generation slot' =
          (if slot = slot' then some generation else none).getD _
        by_cases hslot : slot = slot'
        · rw [if_pos hslot, ← hslot, Function.update_self, Option.getD_some]
        · rw [if_neg hslot, Function.update_of_ne (Ne.symm hslot), Option.getD_none]
      · show s.siteTableExhausted = _
        rw [List.countP_append]
        exact h.exhausted
    | countExhausted =>
      rw [(show s' = _ from hsem)]
      refine ⟨fun slot => ?_, fun slot => ?_, ?_, h.sound.concat trivial⟩
      · rw [keyAt_concat]
        exact h.siteIds slot
      · rw [valueAt_concat]
        exact h.generations slot
      · show s.siteTableExhausted + 1 = _
        rw [List.countP_append, h.exhausted, ← UInt64.ofNat_one, ← UInt64.ofNat_add]
        rfl
    | _ => exact absurd hsem id

variable [DecidableEq τ]

/-- A step adds what it notes to its thread's part of the history. -/
theorem table_thread {t : τ} {op : TableOp} {r : op.Answer} (h : tableSem t op s r s') :
    (s'.trace.filter fun e => e.tag.1 = t) =
        (s.trace.filter fun e => e.tag.1 = t) ++ op.effects t r ∧
      ∀ t', t' ≠ t →
        (s'.trace.filter fun e => e.tag.1 = t') = s.trace.filter fun e => e.tag.1 = t' := by
  rw [table_trace h]
  refine ⟨?_, fun t' hne => ?_⟩
  · rw [List.filter_append, List.filter_eq_self.mpr fun e he => decide_eq_true (table_tags e he)]
  · have hnone : ((op.effects t r).filter fun e => e.tag.1 = t') = [] :=
      List.filter_eq_nil_iff.mpr fun e he htag =>
        hne ((of_decide_eq_true htag).symm.trans (table_tags e he))
    rw [List.filter_append, hnone, List.append_nil]

omit [DecidableEq τ] in
/-- Every operation has an answer of its type. -/
theorem answerable (op : TableOp) : Nonempty op.Answer := by
  cases op with
  | invoke | finish => exact ⟨()⟩
  | table i op => exact op.answerable

/-- **The code of the table makes runs.** Whatever the interleaving, the table holds what its
history says, and the history is a run of the threads' calls. -/
theorem table_run {calls : τ → List TableCall} {p : Pool TableOp.Answer τ (TableState τ) Unit}
    (hrun : Reachable tableSem (tablePool calls) p) : Mirrors p.shared ∧
      Run probeSlot cProbeLimit (fun t i => (calls t)[i]?) p.shared.trace := by
  have hmirrors : Mirrors p.shared := by
    induction hrun with
    | refl => exact mirrors_empty
    | tail _ hstep ih =>
      obtain ⟨t, hby⟩ := hstep
      cases hby with
      | op _ hsem => exact ih.step hsem
  refine ⟨hmirrors, Run.of_threads hmirrors.sound fun t => ?_⟩
  have hdoes := Prog.Does.reachable (fun (s : TableState τ) t => s.trace.filter fun e => e.tag.1 = t)
    (Q := fun t _ l => ThreadSteps probeSlot cProbeLimit t 0 (calls t) l)
    (fun t op s r s' hsem => table_thread hsem) (fun t => tableThread_steps (calls t)) hrun t
  -- what the thread has still to do completes its steps
  obtain ⟨_, rest, hsteps⟩ := hdoes.exists_run answerable
  exact ⟨_, hsteps, List.prefix_append _ _⟩

theorem table_grows {p p' : Pool TableOp.Answer τ (TableState τ) Unit}
    (hrun : Reachable tableSem p p') : p.shared.trace <+: p'.shared.trace := by
  induction hrun with
  | refl => exact List.prefix_rfl
  | tail _ hstep ih =>
    obtain ⟨t, hby⟩ := hstep
    cases hby with
    | op _ hsem => exact ih.trans ⟨_, (table_trace hsem).symm⟩

/-- **The table is a linearisable map with bounded probing.** In every state any interleaving
of the calls of any threads reaches:

* a slot's key stays once it is there, and no two slots have the same;
* a lookup of a site that some returned call recorded, while no other call records it, returns
  the generation stored last in its slot; a lookup of a site that no call has begun to record
  returns `0`;
* the probes of a call follow the site's path, and the call is counted, once, if and only if
  it made `cProbeLimit` of them and none met the site or an empty slot. -/
theorem siteTable_linearises {calls : τ → List TableCall}
    (hnonzero : ∀ t, ∀ c ∈ calls t, Call.key c ≠ 0)
    {p : Pool TableOp.Answer τ (TableState τ) Unit}
    (hrun : Reachable tableSem (tablePool calls) p) :
    (∀ p', Reachable tableSem p p' → ∀ slot, p.shared.siteIds slot ≠ 0 →
      p'.shared.siteIds slot = p.shared.siteIds slot) ∧
    (∀ slot slot', p.shared.siteIds slot ≠ 0 →
      p.shared.siteIds slot = p.shared.siteIds slot' → slot = slot') ∧
    (∀ siteId t i before between result after, (calls t)[i]? = some (.lookup siteId) →
      p.shared.trace = before ++ .invoked t i :: (between ++ .returned t i result :: after) →
      (∀ t' i' generation result', (calls t')[i']? = some (.record siteId generation) →
        .returned t' i' result' ∈ before → .counted t' i' ∉ before →
        (∀ t'' i'' generation', (calls t'')[i'']? = some (.record siteId generation') →
          .invoked t'' i'' ∈ before ++ between → ∃ result'', .returned t'' i'' result'' ∈ before) →
        ∃ slot last, p.shared.siteIds slot = siteId ∧
          (before.filterMap (Event.stored? slot)).getLast? = some last ∧ result = some last) ∧
      ((∀ t' i' generation, (calls t')[i']? = some (.record siteId generation) →
        .invoked t' i' ∉ before ++ between) → result = some 0)) ∧
    (∀ t i result (c : TableCall), (calls t)[i]? = some c →
      .returned t i result ∈ p.shared.trace →
      (probes (stepsOf t i p.shared.trace)).map Prod.fst =
          (List.range (probes (stepsOf t i p.shared.trace)).length).map (probeSlot c.key) ∧
        (stepsOf t i p.shared.trace).countP Event.isCounted =
          if Unresolved cProbeLimit c.key (probes (stepsOf t i p.shared.trace)) then 1 else 0) ∧
    p.shared.siteTableExhausted = UInt64.ofNat (p.shared.trace.countP Event.isCounted) := by
  obtain ⟨hmirrors, hhistory⟩ := table_run hrun
  have hcalls : ∀ t i (c : TableCall), (calls t)[i]? = some c → c.key ≠ 0 := fun t i c hc =>
    hnonzero t c (List.mem_of_getElem? hc)
  refine ⟨fun p' hrun' slot hfull => ?_, fun slot slot' hfull heq => ?_,
    fun siteId t i before between result after hcall htrace => ⟨?_, fun hnever => ?_⟩,
    fun t i result c hcall hreturned => hhistory.counted_iff hcall hreturned,
    hmirrors.exhausted⟩
  · obtain ⟨hmirrors', hhistory'⟩ := table_run (hrun.trans hrun')
    rw [hmirrors.siteIds] at hfull ⊢
    rw [hmirrors'.siteIds]
    exact hhistory'.key_mono (table_grows hrun') hfull
  · rw [hmirrors.siteIds] at hfull
    rw [hmirrors.siteIds, hmirrors.siteIds] at heq
    exact hhistory.key_unique hfull heq
  · intro t' i' generation result' hrecord hreturned hcounted hquiet
    obtain ⟨slot, last, hkey, hlast, hresult⟩ := hhistory.lookup_recorded hcalls htrace hcall
      hrecord hreturned hcounted hquiet
    refine ⟨slot, last, ?_, hlast, hresult⟩
    have hne : keyAt before slot ≠ 0 := hkey ▸ hcalls t i _ hcall
    rw [hmirrors.siteIds, hhistory.key_mono (htrace ▸ List.prefix_append _ _) hne, hkey]
  · exact hhistory.lookup_unrecorded (hcalls t i _ hcall) htrace hcall hnever

/-- One thread records a site, another looks it up behind it. -/
def twoCalls : Bool → List TableCall
  | false => [.record 7 5]
  | true => [.lookup 7]

/-- The calls are made, one after the other. -/
theorem twoCalls_reachable : ∃ slot p, Reachable tableSem (tablePool twoCalls) p ∧
    p.shared.trace = [.invoked false 0, .exchanged false 0 slot 7 0, .stored false 0 slot 5,
      .returned false 0 none, .invoked true 0, .probed true 0 slot 7, .loaded true 0 slot 5,
      .returned true 0 (some 5)] := by
  have hstep : ∀ (t : Bool) (op : TableOp) (r : op.Answer) (s' : TableState Bool)
      {p : Pool TableOp.Answer Bool (TableState Bool) Unit} {next : op.Answer → TableCode Unit},
      Reachable tableSem (tablePool twoCalls) p → p.prog t = .op op next →
      tableSem t op p.shared r s' →
      Reachable tableSem (tablePool twoCalls) ⟨s', Function.update p.prog t (next r)⟩ :=
    fun t _ _ _ _ _ hrun hprog hsem => hrun.tail ⟨t, .op hprog hsem⟩
  have h₁ := hstep false (.invoke 0) () _ .refl rfl rfl
  have h₂ := hstep false (.table 0 (.claimSiteId (probeStart 7) 7)) (0 : UInt64) _ h₁ rfl
    ⟨rfl, rfl⟩
  have h₃ := hstep false (.table 0 (.storeGeneration (probeStart 7) 5)) () _ h₂ rfl rfl
  have h₄ := hstep false (.finish 0 none) () _ h₃ rfl rfl
  have h₅ := hstep true (.invoke 0) () _ h₄ rfl rfl
  have h₆ := hstep true (.table 0 (.loadSiteId (probeStart 7))) (7 : UInt64) _ h₅ rfl
    ⟨rfl, rfl⟩
  have h₇ := hstep true (.table 0 (.loadGeneration (probeStart 7))) (5 : UInt64) _ h₆ rfl
    ⟨rfl, rfl⟩
  have h₈ := hstep true (.finish 0 (some 5)) () _ h₇ rfl rfl
  exact ⟨_, _, h₈, rfl⟩

/-- What the table then holds. -/
theorem siteTable_linearises_two : ∃ p, Reachable tableSem (tablePool twoCalls) p ∧
    (∃ slot, p.shared.siteIds slot = 7) ∧
    (∀ slot slot', p.shared.siteIds slot ≠ 0 →
      p.shared.siteIds slot = p.shared.siteIds slot' → slot = slot') ∧
    p.shared.siteTableExhausted = 0 := by
  obtain ⟨slot, p, hrun, htrace⟩ := twoCalls_reachable
  have hnonzero : ∀ t, ∀ c ∈ twoCalls t, Call.key c ≠ 0 := by
    intro t c hc
    cases t <;> (rw [List.mem_singleton.mp hc]; decide)
  obtain ⟨-, hunique, hlookup, -, hexhausted⟩ := siteTable_linearises hnonzero hrun
  refine ⟨p, hrun, ?_, hunique, ?_⟩
  · obtain ⟨hrecorded, -⟩ := hlookup 7 true 0 [.invoked false 0, .exchanged false 0 slot 7 0,
      .stored false 0 slot 5, .returned false 0 none] [.probed true 0 slot 7, .loaded true 0 slot 5]
      (some 5) [] rfl htrace
    obtain ⟨slot', -, hslot', -⟩ := hrecorded false 0 5 none rfl (by simp) (by simp)
      fun t i g _ hinvoked => by
        have hwho : t = false ∧ i = 0 := by simpa using hinvoked
        exact ⟨none, by simp [hwho]⟩
    exact ⟨slot', hslot'⟩
  · rw [hexhausted, htrace]
    rfl

end Runs

end Sub0Log.Abi
