import Sub0Log.Abi.Host
import Sub0Log.System.Launch

/-!
# Runs of the host

One answer each operation of the host may give, as `System.answer` gives it for the
producer's: a load of a generation is of the last one stored. `runOps` performs a number of
a thread's operations that way. A small host has one Logger, bound to the small segment.
-/

open Bytes Interleaving

namespace Sub0Log.Abi

open Wire Producer Sub0Log.System

variable {κ τ : Type} [DecidableEq κ] [DecidableEq τ]

/-- An operation on Logger `k`, answered; `after` is noted behind the producer's events. -/
def answerLogger (lg : κ → Logger τ) (t : τ) (k : κ) (op : Op) (after : List (HostEvent κ τ))
    (s : HostState κ τ) : op.Answer × HostState κ τ :=
  let r := System.answer (lg k) t op (s.view k)
  (r.1, { s with
    logs := Function.update s.logs k r.2
    caches := r.2.caches
    trace := s.trace ++ (r.2.trace.drop (s.logs k).trace.length).map (.logged k) ++ after })

def answer (lg : κ → Logger τ) (t : τ) : (op : HostOp κ) → HostState κ τ →
    op.Answer × HostState κ τ
  | .logger k op, s => answerLogger lg t k op [] s
  | .publish k op m, s => answerLogger lg t k op [.message t k m] s
  | .loadActive, s => (s.active, { s with trace := s.trace ++ [.active t s.active] })
  | .storeActive k, s => ((), { s with active := k })
  | .loadThreshold k _, s => ((0 : UInt8), { s with trace := s.trace ++ [.threshold t k 0] })
  | .currentCorrelation, s => ((0 : UInt64), s)
  | .loadSiteId slot, s => (s.siteIds slot, s)
  | .claimSiteId slot siteId, s => s.claimSiteId slot siteId
  | .loadGeneration slot, s => ((s.generations slot).getLastD 0, s)
  | .storeGeneration slot generation, s => ((), { s with
      generations := Function.update s.generations slot (s.generations slot ++ [generation]) })
  | .countExhausted, s => ((), { s with siteTableExhausted := s.siteTableExhausted + 1 })
  | .loadUnbound, s => (s.unboundEmits, s)
  | .incrementUnbound, s => ((), { s with unboundEmits := s.unboundEmits + 1 })

theorem onLogger_answer (lg : κ → Logger τ) (t : τ) (k : κ) (op : Op)
    (after : List (HostEvent κ τ)) (s : HostState κ τ) :
    OnLogger lg t k op s (answerLogger lg t k op after s).1 after
      (answerLogger lg t k op after s).2 := by
  have hsem := System.sem_answer (lg k) t op (s.view k)
  refine ⟨_, _, hsem, ?_, rfl⟩
  obtain ⟨new, htrace⟩ := Setting.trace_grows hsem
  have hview : (s.view k).trace = (s.logs k).trace := rfl
  rw [hview] at htrace
  rw [← htrace, List.drop_left]

theorem sem_answer (lg : κ → Logger τ) (t : τ) (op : HostOp κ) (s : HostState κ τ) :
    sem lg t op s (answer lg t op s).1 (answer lg t op s).2 := by
  cases op with
  | logger k op => exact onLogger_answer lg t k op [] s
  | publish k op m => exact onLogger_answer lg t k op _ s
  | loadGeneration slot =>
    refine ⟨?_, rfl⟩
    show (s.generations slot).getLastD 0 ∈ (0 : UInt64) :: s.generations slot
    exact List.getLastD_mem_cons
  | loadActive | loadSiteId | loadUnbound => exact ⟨rfl, rfl⟩
  | _ => exact rfl

/-- At most `n` operations of a thread. -/
def runOps (lg : κ → Logger τ) (t : τ) (n : Nat)
    (p : Pool (ι := HostOp κ) HostOp.Answer τ (HostState κ τ) Unit) :
    Pool (ι := HostOp κ) HostOp.Answer τ (HostState κ τ) Unit :=
  ⟨((p.prog t).execN (answer lg t) n p.shared).2,
    Function.update p.prog t ((p.prog t).execN (answer lg t) n p.shared).1⟩

theorem runOps_reachable (lg : κ → Logger τ) (t : τ) (n : Nat)
    (p : Pool (ι := HostOp κ) HostOp.Answer τ (HostState κ τ) Unit) :
    Reachable (sem lg) p (runOps lg t n p) :=
  (execN_reachable (sem_answer lg t) n p).reachable

/-- What is left of a thread's calls. -/
def runThread (lg : κ → Logger τ) (t : τ)
    (p : Pool (ι := HostOp κ) HostOp.Answer τ (HostState κ τ) Unit) :
    Pool (ι := HostOp κ) HostOp.Answer τ (HostState κ τ) Unit :=
  ⟨((p.prog t).exec (answer lg t) p.shared).2, Function.update p.prog t (.ret ())⟩

theorem runThread_reachable (lg : κ → Logger τ) (t : τ)
    (p : Pool (ι := HostOp κ) HostOp.Answer τ (HostState κ τ) Unit) :
    ReachableBy (sem lg) t p (runThread lg t p) := exec_reachable (sem_answer lg t) p

/-- Two calls are done one after the other. -/
theorem runThread_pair (lg : κ → Logger τ) (t : τ) (c c' : HostCall κ) (s : HostState κ τ) :
    (runThread lg t ⟨s, fun _ => thread lg [c, c']⟩).shared =
      ((call lg c').exec (answer lg t) ((call lg c).exec (answer lg t) s).2).2 := by
  show ((call lg c >>= fun _ => call lg c' >>= fun _ => pure ()).exec (answer lg t) s).2 = _
  rw [exec_bind, exec_bind]
  rfl

/-! ### A small host -/

/-- One Logger; its sites are not used. -/
def smallHost (τ : Type) (chunks : Fin 8) (threadId : τ → UInt64) : Unit → Logger τ := fun _ =>
  { smallLogger chunks plainSite with threadId := threadId }

/-- The Logger is bound, and nothing was logged or defined. -/
def smallStart (τ : Type) (chunks : Fin 8) : HostState Unit τ where
  logs := fun _ => ⟨(smallSegment chunks).2, 0, fun _ => 0, fun _ => ⟨0, 0, ChunkWriter.none⟩,
    0, 0, []⟩
  caches := fun _ => ⟨0, 0, ChunkWriter.none⟩
  active := some ()
  siteIds := fun _ => 0
  generations := fun _ => []
  siteTableExhausted := 0
  unboundEmits := 0
  trace := []

/-- A definition without arguments. -/
def plainDefinition (siteId : UInt64) (format : UInt8) : SiteDefinition where
  siteId := siteId
  subsystem := 0
  severity := 2
  format := [format]
  file := []
  line := 1
  typeCodes := []
  typeCodes_le := by decide
  payload_lt := by
    show definitionPayloadBytes 0 1 0 < 2 ^ 32
    decide

/-- An emit without arguments. -/
def plainRecord (siteId : UInt64) : AbiRecord where
  siteId := siteId
  subsystem := 0
  severity := 2
  payload := none
  payloadBytes := 0
  payload_length := fun _ h => by cases h

end Sub0Log.Abi
