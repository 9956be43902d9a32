import Sub0Log.Abi.Effects
import Sub0Log.Abi.Runs
import Sub0Log.Child.Process

/-!
# Runs of a process with children

One answer each operation may give, as `Abi.answer` gives it for the host's; a thread that runs
alone performs its program to the end. A small process has one Logger, one child and one thread.
-/

open Bytes Interleaving

namespace Sub0Log.Child

open Wire Producer Abi

variable {κ γ τ : Type} [DecidableEq κ] [DecidableEq γ] [DecidableEq τ]

/-- An operation of the host, answered; `after` is noted behind the host's events. -/
def answerHost (lg : κ → Logger τ) (t : τ) (op : HostOp κ) (after : List (ChildEvent κ γ τ))
    (s : ChildState κ γ τ) : op.Answer × ChildState κ γ τ :=
  let r := Abi.answer lg t op s.host
  (r.1, { s with
    host := r.2
    trace := s.trace ++ (r.2.trace.drop s.host.trace.length).map .host ++ after })

/-- What an interceptor says of a line; without one it is logged. -/
def answerLine (children : γ → ChildCaptureState κ) (c : γ) (line : ChildLine)
    (s : ChildState κ γ τ) : Interception :=
  match (children c).onLine with
  | some f => f (s.trace.filterMap (shownLine c) ++ [line])
  | none => .returned .log

def answer (lg : κ → Logger τ) (children : γ → ChildCaptureState κ) (t : τ) :
    (op : ChildOp κ γ) → ChildState κ γ τ → op.Answer × ChildState κ γ τ
  | .host op, s => answerHost lg t op [] s
  | .publish k op c r, s => answerHost lg t (.logger k op) [.record t c k r] s
  | .fetchAdd c counter line, s => ((), { s with
      counters := s.add c counter
      trace := s.trace ++ [.counted t c counter line] })
  | .onLine c line, s => (answerLine children c line s, { s with
      trace := s.trace ++ [.shown t c line (answerLine children c line s)] })

omit [DecidableEq γ] in
theorem onHost_answer (lg : κ → Logger τ) (t : τ) (op : HostOp κ)
    (after : List (ChildEvent κ γ τ)) (s : ChildState κ γ τ) :
    OnHost lg t op s (answerHost lg t op after s).1 after (answerHost lg t op after s).2 := by
  have hsem := Abi.sem_answer lg t op s.host
  obtain ⟨new, htrace, -, -⟩ := host_trace hsem
  refine ⟨_, _, hsem, ?_, rfl⟩
  rw [htrace, List.drop_left]

theorem sem_answer (lg : κ → Logger τ) (children : γ → ChildCaptureState κ) (t : τ)
    (op : ChildOp κ γ) (s : ChildState κ γ τ) :
    sem lg children t op s (answer lg children t op s).1 (answer lg children t op s).2 := by
  cases op with
  | host op => exact onHost_answer lg t op [] s
  | publish k op c r => exact onHost_answer lg t (.logger k op) _ s
  | fetchAdd c counter line => exact rfl
  | onLine c line => exact ⟨rfl, rfl⟩

/-- A thread runs to its end. -/
def runThread (lg : κ → Logger τ) (children : γ → ChildCaptureState κ) (t : τ)
    (p : Pool (ι := ChildOp κ γ) ChildOp.Answer τ (ChildState κ γ τ) Unit) :
    Pool (ι := ChildOp κ γ) ChildOp.Answer τ (ChildState κ γ τ) Unit :=
  ⟨((p.prog t).exec (answer lg children t) p.shared).2, Function.update p.prog t (.ret ())⟩

theorem runThread_reachable (lg : κ → Logger τ) (children : γ → ChildCaptureState κ) (t : τ)
    (p : Pool (ι := ChildOp κ γ) ChildOp.Answer τ (ChildState κ γ τ) Unit) :
    Reachable (sem lg children) p (runThread lg children t p) :=
  (exec_reachable (sem_answer lg children t) p).reachable

theorem runThread_returned (lg : κ → Logger τ) (children : γ → ChildCaptureState κ) (t : τ)
    (p : Pool (ι := ChildOp κ γ) ChildOp.Answer τ (ChildState κ γ τ) Unit) :
    (runThread lg children t p).prog t = .ret () := Function.update_self _ _ _

/-! ### A small process -/

/-- One Logger of two chunks. -/
def smallProcess : Unit → Logger Unit := smallHost Unit 2 fun _ => 1

/-- One child, without an interceptor. -/
def plainChild (_ : Unit) : ChildCaptureState Unit := ⟨some (), none, 1⟩

/-- Nothing was logged or captured. -/
def smallProcessStart : ChildState Unit Unit Unit := ⟨smallStart Unit 2, fun _ _ => 0, []⟩

/-- The one thread captures the child's standard output, which comes in these pieces. -/
def captureRun (reads : List (List UInt8)) :
    Pool (ι := ChildOp Unit Unit) ChildOp.Answer Unit (ChildState Unit Unit Unit) Unit :=
  runThread smallProcess plainChild ()
    ⟨smallProcessStart, fun _ => thread smallProcess plainChild (.capture () .stdout reads)⟩

end Sub0Log.Child
