import Sub0Log.Abi.Host

/-!
# Children and the capture of their output

`child.hpp`: what a child process writes to its output streams is split into lines, and each
line becomes a record of the Logger that was bound when the child was spawned, unless an
interceptor suppresses it. One thread captures one stream; the threads of one child share its
`ChildCaptureState`.

The process that spawns children also logs and lends its Logger to plugins, so the machine is
the host's with the capture counters beside it. An interceptor is a function of every line it
was shown, the last one last, and it may throw; `read` is a list of the pieces it returns.
-/

open Bytes Interleaving

namespace Sub0Log.Child

open Wire Producer Abi

variable {κ γ τ : Type}

/-! ### Lines and interceptors -/

def cLineCap : Nat := cInlineBytesCap * 8

def cCommandLineCap : Nat := cInlineBytesCap

inductive ChildStream
  | stdout
  | stderr
  deriving DecidableEq

def ChildStream.toByte : ChildStream → UInt8
  | stdout => 1
  | stderr => 2

/-- One captured line. -/
structure ChildLine where
  childId : UInt64
  stream : ChildStream
  text : List UInt8
  truncated : Bool
  deriving DecidableEq

inductive InterceptAction
  | log
  | suppress
  deriving DecidableEq

/-- What calling an interceptor comes to. -/
inductive Interception
  | returned (action : InterceptAction)
  | threw

/-- An exception counts as `Log`. -/
def Interception.action : Interception → InterceptAction
  | returned action => action
  | threw => .log

abbrev LineInterceptor : Type := List ChildLine → Interception

/-- `ChildCaptureState` without its counters: the Logger may be null, the interceptor empty. -/
structure ChildCaptureState (κ : Type) where
  logger : Option κ
  onLine : Option LineInterceptor
  childId : UInt64

/-- Its counters. -/
inductive CaptureCounter
  | capturedLines
  | suppressedLines
  | unloggedLines
  | truncatedLines
  deriving DecidableEq

/-- `ChildProcess::ExitStatus`. -/
structure ExitStatus where
  exitCode : Int32
  signal : Int32

/-- A record about a child. -/
inductive ChildRecord
  | start (command : List UInt8) (truncated : Bool)
  | output (line : ChildLine)
  | exit (status : ExitStatus)

/-! ### The state -/

/-- What happened. -/
inductive ChildEvent (κ γ τ : Type)
  | host (e : HostEvent κ τ)
  /-- A counter of a child was incremented for a line. -/
  | counted (thread : τ) (child : γ) (counter : CaptureCounter) (line : ChildLine)
  /-- A child's interceptor was shown a line. -/
  | shown (thread : τ) (child : γ) (line : ChildLine) (found : Interception)
  /-- The head word of a record about a child was stored. -/
  | record (thread : τ) (child : γ) (logger : κ) (r : ChildRecord)

def ChildEvent.thread : ChildEvent κ γ τ → τ
  | host e => e.thread
  | counted t _ _ _ | shown t _ _ _ | record t _ _ _ => t

/-- The lines a child's interceptor was shown. -/
def shownLine [DecidableEq γ] (c : γ) : ChildEvent κ γ τ → Option ChildLine
  | .shown _ c' line _ => if c' = c then some line else none
  | .host _ | .counted _ _ _ _ | .record _ _ _ _ => none

structure ChildState (κ γ τ : Type) where
  host : HostState κ τ
  counters : γ → CaptureCounter → UInt64
  trace : List (ChildEvent κ γ τ)

/-! ### The operations -/

inductive ChildOp (κ γ : Type)
  /-- An operation of the host's code. -/
  | host (op : HostOp κ)
  /-- An operation of the producer's code on a Logger, the store that makes `r` visible. -/
  | publish (k : κ) (op : Op) (c : γ) (r : ChildRecord)
  /-- `fetch_add` of one to a counter; the line is the one that is counted. -/
  | fetchAdd (c : γ) (counter : CaptureCounter) (line : ChildLine)
  /-- The call of a child's interceptor. -/
  | onLine (c : γ) (line : ChildLine)

def ChildOp.Answer : ChildOp κ γ → Type
  | host op => op.Answer
  | publish _ op _ _ => op.Answer
  | fetchAdd _ _ _ => Unit
  | onLine _ _ => Interception

section Semantics

variable [DecidableEq κ] [DecidableEq γ] [DecidableEq τ]

/-- An operation of the host takes `s` to `s'`; what the host notes goes into the trace. -/
def OnHost (lg : κ → Logger τ) (t : τ) (op : HostOp κ) (s : ChildState κ γ τ) (answer : op.Answer)
    (after : List (ChildEvent κ γ τ)) (s' : ChildState κ γ τ) : Prop :=
  ∃ h new, Abi.sem lg t op s.host answer h ∧ h.trace = s.host.trace ++ new ∧
    s' = { s with host := h, trace := s.trace ++ new.map .host ++ after }

/-- A counter incremented, modulo `2 ^ 64`. -/
def ChildState.add (s : ChildState κ γ τ) (c : γ) (counter : CaptureCounter) :
    γ → CaptureCounter → UInt64 :=
  Function.update s.counters c
    (Function.update (s.counters c) counter (s.counters c counter + 1))

/-- What each operation may answer and do. -/
def sem (lg : κ → Logger τ) (children : γ → ChildCaptureState κ) :
    Sem (ι := ChildOp κ γ) ChildOp.Answer τ (ChildState κ γ τ) := fun t op s answer s' =>
  match op, answer with
  | .host op, answer => OnHost lg t op s answer [] s'
  | .publish k op c r, answer => OnHost lg t (.logger k op) s answer [.record t c k r] s'
  | .fetchAdd c counter line, _ =>
    s' = { s with
      counters := s.add c counter
      trace := s.trace ++ [.counted t c counter line] }
  | .onLine c line, answer =>
    (answer = match (children c).onLine with
      | some f => f (s.trace.filterMap (shownLine c) ++ [line])
      | none => .returned .log) ∧
    s' = { s with trace := s.trace ++ [.shown t c line answer] }

end Semantics

/-! ### The code -/

/-- The code of one thread of the process. -/
abbrev ChildCode (κ γ α : Type) : Type := Prog (ι := ChildOp κ γ) ChildOp.Answer α

/-- Code of the host. -/
def onHost {α : Type} : HostCode κ α → ChildCode κ γ α
  | .ret a => .ret a
  | .op i next => .op (.host i) fun r => onHost (next r)

/-- Code of the producer, on Logger `k`. -/
def onProducer {α : Type} (k : κ) (x : Code α) : ChildCode κ γ α := onHost (onLogger k x)

def fetchAdd (c : γ) (counter : CaptureCounter) (line : ChildLine) : ChildCode κ γ Unit :=
  Prog.perform (ChildOp.fetchAdd c counter line)

def publish64 (k : κ) (address word : Nat) (c : γ) (r : ChildRecord) : ChildCode κ γ Unit :=
  Prog.perform (ChildOp.publish k (.store64 address word none) c r)
def publishHigh32 (k : κ) (address half : Nat) (c : γ) (r : ChildRecord) : ChildCode κ γ Unit :=
  Prog.perform (ChildOp.publish k (.storeHigh32 address half none) c r)

section Functions

variable (lg : κ → Logger τ) (children : γ → ChildCaptureState κ)

/-- `writer->commit(slot, head)`, the store of the head word publishing `r`. -/
def commitRecord (c : γ) (k : κ) (slot : Reservation) (kind : RecordKind) (truncated : Bool)
    (payloadBytes : Nat) (r : ChildRecord) : ChildCode κ γ Unit :=
  let word := (RecordHead.mk (UInt16.ofNat payloadBytes) kind
    (if truncated then cFlagTruncated else 0) slot.sequence).pack
  if (lg k).split then do
    onProducer k (storeLow32 slot.headWord (word % 2 ^ 32))
    publishHigh32 k slot.headWord (word / 2 ^ 32) c r
  else
    publish64 k slot.headWord word c r

/-- The part the three writers share: a record of `payloadBytes` bytes is reserved, and then
filled, a clock having been read, and committed. -/
def writeRecord (c : γ) (k : κ) (payloadBytes : Nat) (payload : UInt64 → List UInt8)
    (kind : RecordKind) (truncated : Bool) (r : ChildRecord) : ChildCode κ γ Unit := do
  let slot ← onProducer k ((lg k).reserveRecord payloadBytes none)
  match slot with
  | none => pure ()
  | some slot => do
    let monoNs ← onProducer k monotonicNow
    onProducer k (copyBytes (slot.headWord + 8) (payload monoNs))
    commitRecord lg c k slot kind truncated payloadBytes r

/-- `ChildProcess::writeChildStart`. -/
def writeChildStart (c : γ) (pid correlationId : UInt64) (command : List UInt8)
    (commandTruncated : Bool) : ChildCode κ γ Unit :=
  match (children c).logger with
  | none => pure ()
  | some k =>
    let truncated := decide (cCommandLineCap < command.length) || commandTruncated
    let text := command.take cCommandLineCap
    writeRecord lg c k (sizeofChildStartPayload + 2 + text.length)
      (fun monoNs => (ChildStartPayload.mk (children c).childId pid correlationId monoNs).toBytes ++
        (leBytes 2 text.length ++ text))
      .childStart truncated (.start text truncated)

/-- `ChildProcess::writeChildExit`. -/
def writeChildExit (c : γ) (status : ExitStatus) : ChildCode κ γ Unit :=
  match (children c).logger with
  | none => pure ()
  | some k =>
    writeRecord lg c k sizeofChildExitPayload
      (fun monoNs => (ChildExitPayload.mk (children c).childId monoNs status.exitCode
        status.signal).toBytes)
      .childExit false (.exit status)

/-- What the interceptor says of a line; without one it is logged. -/
def intercept (c : γ) (line : ChildLine) : ChildCode κ γ InterceptAction :=
  if (children c).onLine.isSome then do
    let found ← Prog.perform (ChildOp.onLine c line)
    pure (Interception.action found)
  else pure .log

/-- `truncatedLines_` is incremented for a line that was cut. -/
def countTruncatedLine (c : γ) (line : ChildLine) : ChildCode κ γ Unit :=
  if line.truncated then fetchAdd c .truncatedLines line else pure ()

/-- `ChildProcess::writeChildOutputLine`. -/
def writeChildOutputLine (c : γ) (line : ChildLine) : ChildCode κ γ Unit := do
  fetchAdd c .capturedLines line
  countTruncatedLine c line
  let action ← intercept children c line
  if action = .suppress then fetchAdd c .suppressedLines line
  else
    match (children c).logger with
    | none => fetchAdd c .unloggedLines line
    | some k =>
      writeRecord lg c k (sizeofChildOutputPayload + line.text.length)
        (fun monoNs => (ChildOutputPayload.mk (children c).childId monoNs
          line.stream.toByte).toBytes ++ line.text)
        .childOutput line.truncated (.output line)

/-! ### Splitting -/

/-- What a capture loop threads from one chunk to the next. -/
structure Carry where
  carry : List UInt8
  discardingOverlong : Bool

def cLF : UInt8 := 10
def cCR : UInt8 := 13

/-- One iteration of `processCapturedChunk`: the line it writes, if it writes one, with its
truncation, and what is carried on. -/
def captureByte (s : Carry) (c : UInt8) : Option (List UInt8 × Bool) × Carry :=
  if c = cLF then
    if s.discardingOverlong then (none, ⟨[], false⟩)
    else
      let text := if s.carry.getLast? = some cCR then s.carry.dropLast else s.carry
      (some (text, false), ⟨[], false⟩)
  else if s.discardingOverlong then (none, s)
  else
    let carry := s.carry ++ [c]
    if cLineCap < carry.length then (some (carry.take cLineCap, true), ⟨[], true⟩)
    else (none, ⟨carry, false⟩)

/-- A line of a stream is written, if there is one. -/
def writeCaptured (c : γ) (stream : ChildStream) : Option (List UInt8 × Bool) → ChildCode κ γ Unit
  | none => pure ()
  | some (text, truncated) =>
    writeChildOutputLine lg children c ⟨(children c).childId, stream, text, truncated⟩

/-- `ChildProcess::processCapturedChunk`. -/
def processCapturedChunk (c : γ) (stream : ChildStream) : List UInt8 → Carry → ChildCode κ γ Carry
  | [], s => pure s
  | byte :: chunk, s => do
    writeCaptured lg children c stream (captureByte s byte).1
    processCapturedChunk c stream chunk (captureByte s byte).2

/-- The loop of `ChildProcess::captureLoop` over what `read` returns. -/
def captureChunks (c : γ) (stream : ChildStream) : List (List UInt8) → Carry → ChildCode κ γ Carry
  | [], s => pure s
  | chunk :: reads, s => do
    let s ← processCapturedChunk lg children c stream chunk s
    captureChunks c stream reads s

/-- The line that end of file leaves unterminated. -/
def lastLine (s : Carry) : Option (List UInt8 × Bool) :=
  if s.discardingOverlong = false ∧ s.carry ≠ [] then some (s.carry, false) else none

/-- `ChildProcess::captureLoop`. -/
def captureLoop (c : γ) (stream : ChildStream) (reads : List (List UInt8)) : ChildCode κ γ Unit := do
  let s ← captureChunks lg children c stream reads ⟨[], false⟩
  writeCaptured lg children c stream (lastLine s)

/-! ### Threads -/

/-- The text of a `ChildStart`, as `spawn` builds it: the arguments separated by blanks, cut. -/
def startCommand (argv : List (List UInt8)) : List UInt8 × Bool :=
  let command := List.intercalate [32] argv
  (command.take cCommandLineCap, decide (cCommandLineCap < command.length))

/-- The part of `spawn` that logs. -/
def writeSpawned (c : γ) (pid : UInt64) (argv : List (List UInt8)) : ChildCode κ γ Unit := do
  let scope ← onHost currentCorrelation
  let correlationId := match (children c).logger with
    | some k => (lg k).correlation scope
    | none => scope
  writeChildStart lg children c pid correlationId (startCommand argv).1 (startCommand argv).2

/-- What a thread that captures nothing may do: spawn a child, reap it, or run code of the host
or of the producer. -/
inductive ChildCall (κ γ : Type)
  | spawn (c : γ) (pid : UInt64) (argv : List (List UInt8))
  | reap (c : γ) (status : ExitStatus)
  | host (x : HostCode κ Unit)

/-- A thread of the process; those that capture are started for it. -/
inductive ChildThread (κ γ : Type)
  | capture (c : γ) (stream : ChildStream) (reads : List (List UInt8))
  | calls (calls : List (ChildCall κ γ))

def call : ChildCall κ γ → ChildCode κ γ Unit
  | .spawn c pid argv => writeSpawned lg children c pid argv
  | .reap c status => writeChildExit lg children c status
  | .host x => onHost x

/-- Calls one after another. -/
def callAll : List (ChildCall κ γ) → ChildCode κ γ Unit
  | [] => pure ()
  | x :: calls => do
    call lg children x
    callAll calls

def thread : ChildThread κ γ → ChildCode κ γ Unit
  | .capture c stream reads => captureLoop lg children c stream reads
  | .calls calls => callAll lg children calls

end Functions

end Sub0Log.Child
