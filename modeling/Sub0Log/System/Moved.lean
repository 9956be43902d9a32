import Sub0Log.Library.Relabel
import Sub0Log.System.Ledger

/-!
# A Logger that was moved

`Logger(Logger&&)` hands the segment's bytes to the new object; the old one keeps the
generation, the key and the geometry, but is not valid. Its threads' writer caches are not
told: they go on naming the old object, and what they point into is now the new one's.

After the move every thread emits through either object. The objects share the memory, the
sites' keys and the caches; each counts for itself (`MovedState`). An emit through the old
object is `Cold` when its thread has no writer of that object with room for what the emit
would write first. **`move_one_owner`**: while these are all there are, the old object drops
every emit and stores nowhere, and the new one's ledger balances.
-/

open Bytes Interleaving

namespace Sub0Log.System

open Wire Reader Producer

variable {τ : Type}

/-! ### Objects -/

/-- A `Logger` object. `data` is what `segment_.bytes_` points to, null being zero. -/
structure LoggerObject (τ : Type) where
  logger : Logger τ
  data : Nat

namespace LoggerObject

/-- `Segment::valid`. -/
def valid (o : LoggerObject τ) : Bool := decide (o.data ≠ 0)

/-- `Logger(Logger&&)`, the new object lying at `address`: the new object and the old one. Both
keep the generation, the key and the geometry; the counters are copied (`MovedState.ofMove`). -/
def move (o : LoggerObject τ) (address : Nat) : LoggerObject τ × LoggerObject τ :=
  ({ o with logger := { o.logger with address := address } }, { o with data := 0 })

/-- The claim of an object that is not valid is refused before it reaches the cursor. -/
def claimChunkIndex (o : LoggerObject τ) (t : τ) (s : State τ) : Nat × State τ :=
  if o.valid then Producer.claimChunkIndex o.logger t s else (o.logger.segment.chunkCount, s)

/-- What an operation of the object's code may answer and do. -/
def sem [DecidableEq τ] (o : LoggerObject τ) : Sem Op.Answer τ (State τ) := fun t op s answer s' =>
  match op, answer with
  | .claimChunkIndex, index => (index, s') = o.claimChunkIndex t s
  | op, answer => Producer.sem o.logger t op s answer s'

/-- A valid object's code does what the producer's does. -/
theorem sem_of_valid [DecidableEq τ] {o : LoggerObject τ} (h : o.valid = true) {t : τ} {op : Op}
    {s s' : State τ} {r : op.Answer} (hsem : o.sem t op s r s') :
    Producer.sem o.logger t op s r s' := by
  cases op with
  | claimChunkIndex =>
    have hclaim : (r, s') = o.claimChunkIndex t s := hsem
    unfold claimChunkIndex at hclaim
    rw [if_pos h] at hclaim
    exact hclaim
  | _ => exact hsem

end LoggerObject

/-! ### Both objects -/

/-- `target` is the state of the new object, with the memory, the keys and the caches; the rest
is the old one's. `touched` are the addresses its code stored to. -/
structure MovedState (τ : Type) where
  target : State τ
  dropped : Nat
  truncated : Nat
  trace : List (Event τ)
  touched : List Nat

/-- The state as the old object's code has it. -/
def MovedState.source (s : MovedState τ) : State τ :=
  { s.target with dropped := s.dropped, truncated := s.truncated, trace := s.trace }

/-- The state behind the move. The old object's counters stay what they were. -/
def MovedState.ofMove (s : State τ) : MovedState τ := ⟨s, s.dropped, s.truncated, [], []⟩

/-- The addresses an operation stores to. -/
def touches : Op → List Nat
  | .storeByte address _ => [address]
  | .store64 address _ _ => List.range' address 8
  | .storeLow32 address _ => List.range' address 4
  | .storeHigh32 address _ _ => List.range' (address + 4) 4
  | .loadKey _ | .storeKey _ _ | .claimChunkIndex | .currentThreadId | .monotonicNow | .loadCache
  | .storeCache _ | .copyOrder _ | .countDrop _ | .countTruncation => []

inductive MoveOp
  /-- An emit through the old object begins. -/
  | begin (e : Emit)
  | source (op : Op)
  | target (op : Op)

def MoveOp.Answer : MoveOp → Type
  | begin _ => Unit
  | source op | target op => op.Answer

/-- What each operation may answer and do, `a` being the old object and `b` the new one. Emits
through the old one begin where `cond` holds. -/
def moveSem [DecidableEq τ] (a b : LoggerObject τ) (cond : MovedState τ → τ → Emit → Prop) :
    Sem MoveOp.Answer τ (MovedState τ) := fun t op s answer s' =>
  match op, answer with
  | .begin e, _ => cond s t e ∧ s' = s
  | .source op, answer => ∃ v, a.sem t op s.source answer v ∧ s' =
    { target := { v with
        dropped := s.target.dropped
        truncated := s.target.truncated
        trace := s.target.trace }
      dropped := v.dropped
      truncated := v.truncated
      trace := v.trace
      touched := s.touched ++ touches op }
  | .target op, answer => ∃ v, b.sem t op s.target answer v ∧ s' = { s with target := v }

/-- The code of one thread. -/
abbrev MoveCode (α : Type) : Type := Prog MoveOp.Answer α

def onSource {α : Type} (x : Code α) : MoveCode α := x.relabel MoveOp.source fun _ r => r

def onTarget {α : Type} (x : Code α) : MoveCode α := x.relabel MoveOp.target fun _ r => r

/-- An emit through the old object, which is still bound, or one through the new. -/
inductive MoveCall (a b : Logger τ)
  | source (e : Emit) (typed : a.Typed e)
  | target (e : Emit) (typed : b.Typed e)

namespace MoveCall

variable {a b : Logger τ}

def source? : MoveCall a b → Option Emit
  | source e _ => some e
  | target _ _ => none

def target? : MoveCall a b → Option (Call b)
  | source _ _ => none
  | target e typed => some (.emit e typed)

/-- One call. -/
def code : MoveCall a b → MoveCode Unit
  | source e _ => do
    let _ ← Prog.perform (MoveOp.begin e)
    onSource (a.emitRecord e)
  | target e _ => onTarget (b.emitRecord e)

end MoveCall

/-- A thread's calls, one after another. -/
def moveThread {a b : Logger τ} : List (MoveCall a b) → MoveCode Unit
  | [] => pure ()
  | c :: calls => do
    c.code
    moveThread calls

/-! ### Emits that find no writer -/

/-- The writer has room for the records of a Message. -/
def Takes (w : ChunkWriter) (args : List Arg) : Prop :=
  if cHasByteArg args then w.FitsChain args else w.Fits (sizeofMessagePayload + upperBoundSize args)

/-- A writer of the old object that the thread still has is full: it takes neither the Message
nor, where the site is not announced, the definition. -/
def Cold (a : Logger τ) (s : MovedState τ) (t : τ) (e : Emit) : Prop :=
  (s.target.caches t).owner = a.address →
    (s.target.caches t).generation = a.segment.generation →
    (s.target.caches t).writer.valid = true →
      ¬Takes (s.target.caches t).writer e.args ∧
      (s.target.keys e.site ≠ a.segment.announceKey →
        ¬(s.target.caches t).writer.Fits ((a.sites e.site).definition e.site).wholeBytes)

/-- What the old object did for thread `t`. -/
def MovedState.own [DecidableEq τ] (s : MovedState τ) (t : τ) : List (Event τ) :=
  s.trace.filter fun e => e.thread = t

/-- Since `start` the old object has only dropped. -/
structure OnlyDropped (a : Logger τ) (start s : MovedState τ) : Prop where
  touched : s.touched = start.touched
  truncated : s.truncated = start.truncated
  drops : ∀ e ∈ s.trace, e.isDrop = true
  dropped : s.dropped = (start.dropped + s.trace.length) % a.counterWrap

/-! ### The proof method's parameters -/

variable [DecidableEq τ] {S : Setting τ} {a : Logger τ} {b : LoggerObject τ} {start : MovedState τ}
  {t : τ} {h l : List (Event τ)} {s s' : MovedState τ}

/-- The new object's invariant beside the old one's account. -/
def movedSpec (S : Setting τ) (a : Logger τ) (start : MovedState τ) : Spec τ (MovedState τ) where
  inv := fun s => S.Inv s.target ∧ OnlyDropped a start s
  env := fun t s s' => S.Env t s.target s'.target ∧ s'.own t = s.own t
  env_refl := fun t s => ⟨S.spec.env_refl t s.target, rfl⟩
  env_trans := fun t _ _ _ h h' => ⟨S.spec.env_trans t _ _ _ h.1 h'.1, h'.2.trans h.2⟩

/-- Code of thread `t` between a precondition and a postcondition, the old object being `a`. -/
abbrev MovedMeets (S : Setting τ) (a : Logger τ) (b : LoggerObject τ) (start : MovedState τ)
    (t : τ) {α : Type} (P : MovedState τ → Prop) (x : MoveCode α)
    (Q : α → MovedState τ → Prop) : Prop :=
  (movedSpec S a start).Triple (moveSem ⟨a, 0⟩ b (Cold a)) t P x Q

/-- Between two calls: the new object knows thread `t` idle, and `l` is what the old one did. -/
structure Cool (S : Setting τ) (t : τ) (h l : List (Event τ)) (s : MovedState τ) : Prop where
  idle : S.Idle t h s.target
  own : s.own t = l

theorem Cool.env (hP : Cool S t h l s) (henv : (movedSpec S a start).env t s s') :
    Cool S t h l s' :=
  ⟨Setting.idle_stable _ _ henv.1 hP.idle, henv.2.trans hP.own⟩

theorem cool_stable : (movedSpec S a start).Stable t (Cool S t h l) := fun _ _ henv hP =>
  hP.env henv

/-- That a thread has no room is its own affair, and what is announced stays announced. -/
theorem cold_stable (hsegment : S.lg.segment = a.segment) (e : Emit) :
    (movedSpec S a start).Stable t fun s => Cold a s t e := by
  intro s s' henv hcold
  unfold Cold
  rw [henv.1.cache]
  intro howner hgeneration hvalid
  obtain ⟨hmessage, hdefinition⟩ := hcold howner hgeneration hvalid
  refine ⟨hmessage, fun hkey => hdefinition fun hannounced => hkey ?_⟩
  rw [← hsegment] at hannounced ⊢
  exact henv.1.keys e.site hannounced

/-! ### Operations of the old object -/

/-- A step of the old object that changes no more than its thread's cache. -/
theorem source_guar (hinv : S.Inv s.target) {cache : WriterCache}
    (htarget : s'.target = { s.target with caches := Function.update s.target.caches t cache })
    (htrace : ∃ new, s'.trace = s.trace ++ new ∧ ∀ e ∈ new, Event.thread e = t) :
    S.Inv s'.target ∧ (movedSpec S a start).guar t s s' := by
  have hcaches : S.spec.guar t s.target
      { s.target with caches := Function.update s.target.caches t cache } :=
    Setting.guar_of hinv.layout (fun t' hne => Function.update_of_ne hne _ _)
      ⟨[], (List.append_nil _).symm, fun e he => by cases he⟩ (fun _ _ => rfl) fun _ => id
  rw [htarget]
  refine ⟨hinv.of_caches _, fun t' hne => ⟨?_, ?_⟩⟩
  · rw [htarget]
    exact hcaches t' hne
  · obtain ⟨new, htrace, hown⟩ := htrace
    have hnone : new.filter (fun e => e.thread = t') = [] :=
      List.filter_eq_nil_iff.mpr fun e he heq =>
        hne ((of_decide_eq_true heq).symm.trans (hown e he))
    unfold MovedState.own
    rw [htrace, List.filter_append, hnone, List.append_nil]

/-- An operation that only answers. -/
theorem source_answer {P : MovedState τ → Prop} (hP : (movedSpec S a start).Stable t P) {op : Op}
    (htouches : touches op = []) {Q : op.Answer → MovedState τ → Prop}
    (hop : ∀ s r v, P s → LoggerObject.sem ⟨a, 0⟩ t op s.source r v → v = s.source ∧ Q r s) :
    MovedMeets S a b start t P (Prog.perform (MoveOp.source op)) Q := by
  refine Spec.Triple.op hP fun s r s' hinv hpre hsem => ?_
  obtain ⟨v, hsem, hs'⟩ := hsem
  obtain ⟨rfl, hQ⟩ := hop s r v hpre hsem
  have hsame : s' = s := by
    rw [hs', htouches, List.append_nil]
    rfl
  subst hsame
  exact ⟨hinv, fun t' _ => (movedSpec S a start).env_refl t' s', hQ⟩

theorem source_loadKey {P : MovedState τ → Prop} (hP : (movedSpec S a start).Stable t P)
    (id : UInt64) : MovedMeets S a b start t P (onSource (loadKey id)) fun key s =>
      key = s.target.keys id ∧ P s :=
  source_answer hP rfl fun _ _ _ hpre hsem => ⟨hsem.2, hsem.1, hpre⟩

theorem source_loadCache {P : MovedState τ → Prop} (hP : (movedSpec S a start).Stable t P) :
    MovedMeets S a b start t P (onSource loadCache) fun cache s =>
      cache = s.target.caches t ∧ P s :=
  source_answer hP rfl fun _ _ _ hpre hsem => ⟨hsem.2, hsem.1, hpre⟩

/-- There is no chunk to claim. -/
theorem source_claimIndex {P : MovedState τ → Prop} (hP : (movedSpec S a start).Stable t P) :
    MovedMeets S a b start t P (onSource claimIndex) fun index s =>
      index = a.segment.chunkCount ∧ P s := by
  refine source_answer hP rfl fun s r v hpre hsem => ?_
  obtain ⟨rfl, rfl⟩ := Prod.mk.inj (show (r, v) = (a.segment.chunkCount, s.source) from hsem)
  exact ⟨rfl, rfl, hpre⟩

/-- The cache names the old object; the new one's thread is as idle as it was. -/
theorem source_storeCache (haddress : S.lg.address ≠ a.address) {cache : WriterCache}
    (hcache : cache.owner = a.address) :
    MovedMeets S a b start t (Cool S t h l) (onSource (storeCache cache)) fun _ =>
      Cool S t h l := by
  refine Spec.Triple.op cool_stable fun s r s' hinv hpre hsem => ?_
  obtain ⟨v, hsem, hs'⟩ := hsem
  obtain rfl : v = { s.source with
    caches := Function.update s.source.caches t cache } := hsem
  have htarget : s'.target = { s.target with
    caches := Function.update s.target.caches t cache } := by rw [hs']; rfl
  have htrace : s'.trace = s.trace := by rw [hs']; rfl
  obtain ⟨hinv', hguar⟩ : S.Inv s'.target ∧ (movedSpec S a start).guar t s s' :=
    source_guar hinv.1 htarget ⟨[], by rw [htrace, List.append_nil], fun e he => by cases he⟩
  have honlyDropped : OnlyDropped a start s' := by
    refine ⟨?_, ?_, ?_, ?_⟩
    · rw [hs']
      exact (List.append_nil _).trans hinv.2.touched
    · rw [hs']
      exact hinv.2.truncated
    · rw [htrace]
      exact hinv.2.drops
    · rw [htrace, hs']
      exact hinv.2.dropped
  refine ⟨⟨hinv', honlyDropped⟩, hguar, ⟨⟨⟨?_, ?_⟩, fun howner => ?_⟩, ?_⟩⟩
  · rw [htarget]
    exact hpre.idle.hist
  · rw [htarget]
    exact hpre.idle.quiet
  · rw [htarget] at howner
    change (Function.update s.target.caches t cache t).owner = S.lg.address at howner
    rw [Function.update_self, hcache] at howner
    exact absurd howner.symm haddress
  · unfold MovedState.own
    rw [htrace]
    exact hpre.own

/-- The drop that is counted. -/
theorem source_countDrop (emit : Option Emit) :
    MovedMeets S a b start t (Cool S t h l) (onSource (countDrop emit)) fun _ =>
      Cool S t h (l ++ [.dropped t emit]) := by
  refine Spec.Triple.op cool_stable fun s r s' hinv hpre hsem => ?_
  obtain ⟨v, hsem, hs'⟩ := hsem
  obtain rfl : v = { s.source with
    dropped := (s.source.dropped + 1) % a.counterWrap
    trace := s.source.trace ++ [.dropped t emit] } := hsem
  have htrace : s'.trace = s.trace ++ [.dropped t emit] := by rw [hs']; rfl
  have htarget : s'.target = s.target := by rw [hs']; rfl
  have hown : ∀ e ∈ ([.dropped t emit] : List (Event τ)), Event.thread e = t := by
    intro e he
    rw [List.mem_singleton.mp he]
    rfl
  have hsame : s'.target = { s.target with
      caches := Function.update s.target.caches t (s.target.caches t) } := by
    rw [htarget, Function.update_eq_self]
  obtain ⟨hinv', hguar⟩ : S.Inv s'.target ∧ (movedSpec S a start).guar t s s' :=
    source_guar hinv.1 hsame ⟨_, htrace, hown⟩
  have honlyDropped : OnlyDropped a start s' := by
    refine ⟨?_, ?_, fun e he => ?_, ?_⟩
    · rw [hs']
      exact (List.append_nil _).trans hinv.2.touched
    · rw [hs']
      exact hinv.2.truncated
    · rw [htrace] at he
      rcases List.mem_append.mp he with he | he
      · exact hinv.2.drops e he
      · rw [List.mem_singleton.mp he]
        rfl
    · rw [htrace, List.length_append, hs']
      show (s.dropped + 1) % a.counterWrap = _
      rw [hinv.2.dropped, Nat.mod_add_mod, Nat.add_assoc]
      rfl
  refine ⟨⟨hinv', honlyDropped⟩, hguar, ⟨htarget ▸ hpre.idle, ?_⟩⟩
  unfold MovedState.own
  rw [htrace, List.filter_append, List.filter_eq_self.mpr fun e he => decide_eq_true (hown e he)]
  exact congrArg (· ++ _) hpre.own

/-! ### Writers and reservations of the old object -/

theorem source_bind {α β : Type} {P : MovedState τ → Prop} {x : Code α} {f : α → Code β}
    {Q : α → MovedState τ → Prop} {R : β → MovedState τ → Prop}
    (hx : MovedMeets S a b start t P (onSource x) Q)
    (hf : ∀ r, MovedMeets S a b start t (Q r) (onSource (f r)) R) :
    MovedMeets S a b start t P (onSource (x >>= f)) R := by
  have hsteps : onSource (x >>= f) = onSource x >>= fun r => onSource (f r) :=
    Prog.relabel_bind _ _ x f
  rw [hsteps]
  exact Spec.Triple.bind hx hf

/-- A writer of the old object that the thread has satisfies `full`. -/
def Lacks (a : Logger τ) (full : ChunkWriter → Prop) (t : τ) (s : MovedState τ) : Prop :=
  (s.target.caches t).owner = a.address →
    (s.target.caches t).generation = a.segment.generation →
    (s.target.caches t).writer.valid = true → full (s.target.caches t).writer

/-- The thread has a writer that satisfies `full`, or none. -/
def Spent (S : Setting τ) (full : ChunkWriter → Prop) (t : τ) (h l : List (Event τ))
    (writer : Bool) (s : MovedState τ) : Prop :=
  Cool S t h l s ∧ (writer = true → full (s.target.caches t).writer)

variable {full : ChunkWriter → Prop}

theorem lacks_stable : (movedSpec S a start).Stable t fun s => Cool S t h l s ∧ Lacks a full t s := by
  intro s s' henv hP
  refine ⟨hP.1.env henv, ?_⟩
  unfold Lacks
  rw [henv.1.cache]
  exact hP.2

theorem Spent.env {writer : Bool} (hP : Spent S full t h l writer s)
    (henv : (movedSpec S a start).env t s s') : Spent S full t h l writer s' := by
  refine ⟨hP.1.env henv, ?_⟩
  rw [henv.1.cache]
  exact hP.2

theorem spent_stable {writer : Bool} :
    (movedSpec S a start).Stable t (Spent S full t h l writer) := fun _ _ henv hP => hP.env henv

/-- `refillWriter` finds no chunk. -/
theorem source_refillWriter (haddress : S.lg.address ≠ a.address) :
    MovedMeets S a b start t (Cool S t h l) (onSource a.refillWriter) fun writer s =>
      writer = false ∧ Cool S t h l s := by
  have hclaim : MovedMeets S a b start t (Cool S t h l) (onSource a.claimChunk) fun w s =>
      w = ChunkWriter.none ∧ Cool S t h l s := by
    refine source_bind (source_claimIndex cool_stable) fun index => Spec.Triple.of_pure fun hindex => ?_
    rw [if_pos (Nat.le_of_eq hindex.symm)]
    exact Spec.Triple.pure fun s _ hP => ⟨rfl, hP⟩
  refine source_bind hclaim fun w => Spec.Triple.of_pure fun hw => ?_
  subst hw
  exact source_bind (source_storeCache haddress rfl) fun _ =>
    Spec.Triple.pure fun s _ hP => ⟨rfl, hP⟩

/-- `currentWriter` gives the writer the thread has, or refills and finds none. -/
theorem source_currentWriter (haddress : S.lg.address ≠ a.address) :
    MovedMeets S a b start t (fun s => Cool S t h l s ∧ Lacks a full t s)
      (onSource a.currentWriter) fun writer => Spent S full t h l writer := by
  refine source_bind (source_loadCache lacks_stable) fun cache => ?_
  split
  · refine Spec.Triple.conseq (source_refillWriter haddress) (fun s _ hP => hP.2.1)
      fun writer s _ hP => ⟨hP.2, fun htrue => ?_⟩
    rw [hP.1] at htrue
    cases htrue
  · rename_i hours
    obtain ⟨howner, hgeneration⟩ := not_or.mp hours
    refine Spec.Triple.pure fun s _ hP => ⟨hP.2.1, fun hvalid => ?_⟩
    obtain ⟨rfl, -, hlacks⟩ := hP
    exact hlacks (not_not.mp howner) (not_not.mp hgeneration) hvalid

/-- No reservation is made. -/
theorem source_tryReserve {n : Nat} (hfull : ∀ w, full w → ¬w.Fits n) (writer : Bool) :
    MovedMeets S a b start t (Spent S full t h l writer) (onSource (tryReserve writer n))
      fun slot s => slot = none ∧ Cool S t h l s := by
  cases writer with
  | false => exact Spec.Triple.pure fun s _ hP => ⟨rfl, hP.1⟩
  | true =>
    refine source_bind (source_loadCache spent_stable) fun cache => ?_
    by_cases hfits : cache.writer.Fits n
    · refine fun s _ hP => absurd hfits ?_
      obtain ⟨rfl, -, hspent⟩ := hP
      exact hfull _ (hspent rfl)
    · rw [ChunkWriter.reserve_of_not_fits hfits]
      exact Spec.Triple.pure fun s _ hP => ⟨rfl, hP.2.1⟩

theorem source_tryReserveChain {args : List Arg} (hfull : ∀ w, full w → ¬w.FitsChain args)
    (writer : Bool) :
    MovedMeets S a b start t (Spent S full t h l writer) (onSource (tryReserveChain writer args))
      fun reserved s => reserved = none ∧ Cool S t h l s := by
  cases writer with
  | false => exact Spec.Triple.pure fun s _ hP => ⟨rfl, hP.1⟩
  | true =>
    have hleft : MovedMeets S a b start t (Spent S full t h l true) (onSource remaining)
        fun left s => left = (s.target.caches t).writer.remaining ∧ Spent S full t h l true s :=
      source_bind (source_loadCache spent_stable) fun cache => Spec.Triple.pure fun s _ hP => by
        obtain ⟨rfl, hspent⟩ := hP
        exact ⟨rfl, hspent⟩
    refine source_bind hleft fun left => ?_
    by_cases hroom : left < chainBytes args
    · rw [if_pos hroom]
      exact Spec.Triple.pure fun s _ hP => ⟨rfl, hP.2.1⟩
    · -- the length of the Message itself is what a head word cannot say
      rw [if_neg hroom]
      refine source_bind (Q := fun slot s => slot = none ∧ Cool S t h l s) ?_ fun slot =>
        Spec.Triple.of_pure fun hslot => by
          subst hslot
          exact Spec.Triple.pure fun s _ hP => ⟨rfl, hP⟩
      refine source_bind (Q := fun cache s => (¬cache.writer.FitsChain args ∧
        ¬cache.writer.remaining < chainBytes args) ∧ Cool S t h l s) ?_ fun cache =>
          Spec.Triple.of_pure fun hcache => ?_
      · refine Spec.Triple.conseq (source_loadCache (P := fun s =>
          left = (s.target.caches t).writer.remaining ∧ Spent S full t h l true s) ?_)
          (fun s _ hP => hP) fun cache s _ hP => ?_
        · intro s s' henv hP
          rw [henv.1.cache]
          exact ⟨hP.1, hP.2.env henv⟩
        · obtain ⟨rfl, hremaining, hcool, hspent⟩ := hP
          exact ⟨⟨hfull _ (hspent rfl), hremaining ▸ hroom⟩, hcool⟩
      · have hpos : 0 < chainBytes args := lt_of_lt_of_le (by decide : 0 < 8) <| by
          rw [chainBytes_eq]
          unfold recordFootprint
          omega
        have hfits : ¬cache.writer.Fits (messagePayloadBytes args) := fun hfits =>
          hcache.1 ⟨hfits.1, (ChunkWriter.le_remaining hpos).mp (Nat.le_of_not_lt hcache.2)⟩
        rw [ChunkWriter.reserve_of_not_fits hfits]
        exact Spec.Triple.pure fun s _ hP => ⟨rfl, hP⟩

/-- `reserveRecord`: the drop is counted. -/
theorem source_reserveRecord (haddress : S.lg.address ≠ a.address) {n : Nat}
    (hfull : ∀ w, full w → ¬w.Fits n) (onDrop : Option Emit) :
    MovedMeets S a b start t (fun s => Cool S t h l s ∧ Lacks a full t s)
      (onSource (a.reserveRecord n onDrop)) fun slot s =>
        slot = none ∧ Cool S t h (l ++ [.dropped t onDrop]) s := by
  refine source_bind (source_currentWriter haddress) fun writer => ?_
  refine source_bind (source_tryReserve hfull writer) fun slot => Spec.Triple.of_pure fun hslot => ?_
  subst hslot
  refine source_bind (source_refillWriter haddress) fun writer =>
    Spec.Triple.of_pure fun hwriter => ?_
  subst hwriter
  refine source_bind (Q := fun slot s => slot = none ∧ Cool S t h l s)
    (Spec.Triple.pure fun s _ hP => ⟨rfl, hP⟩) fun slot => Spec.Triple.of_pure fun hslot => ?_
  subst hslot
  exact source_bind (source_countDrop onDrop) fun _ => Spec.Triple.pure fun s _ hP => ⟨rfl, hP⟩

/-! ### Emits through the old object -/

/-- `writeSiteDefinitionCore`, without room for the definition. -/
theorem source_writeSiteDefinitionCore (haddress : S.lg.address ≠ a.address) {d : SiteDefinition}
    (hfull : ∀ w, full w → ¬w.Fits d.wholeBytes) (onDrop : Option Emit) :
    MovedMeets S a b start t (fun s => Cool S t h l s ∧ Lacks a full t s)
      (onSource (a.writeSiteDefinitionCore d onDrop)) fun written s =>
        written = false ∧ Cool S t h (l ++ [.dropped t onDrop]) s := by
  refine source_bind (source_currentWriter haddress) fun writer => ?_
  refine source_bind (source_tryReserve hfull writer) fun slot => Spec.Triple.of_pure fun hslot => ?_
  subst hslot
  refine source_bind (source_refillWriter haddress) fun writer =>
    Spec.Triple.of_pure fun hwriter => ?_
  subst hwriter
  exact source_bind (source_countDrop onDrop) fun _ => Spec.Triple.pure fun s _ hP => ⟨rfl, hP⟩

/-- `emitMessage`, without room for the Message. -/
theorem source_emitMessage (haddress : S.lg.address ≠ a.address) {e : Emit}
    (hfull : ∀ w, full w → ¬Takes w e.args) :
    MovedMeets S a b start t (fun s => Cool S t h l s ∧ Lacks a full t s)
      (onSource (a.emitMessage e)) fun _ => Cool S t h (l ++ [.dropped t (some e)]) := by
  unfold Logger.emitMessage
  by_cases hbytes : cHasByteArg e.args = true
  · have hchain : ∀ w, full w → ¬w.FitsChain e.args := fun w hw htakes => hfull w hw (by
      unfold Takes
      rw [if_pos hbytes]
      exact htakes)
    rw [if_pos hbytes]
    refine source_bind (source_currentWriter haddress) fun writer => ?_
    refine source_bind (source_tryReserveChain hchain writer) fun reserved =>
      Spec.Triple.of_pure fun hreserved => ?_
    subst hreserved
    refine source_bind (source_refillWriter haddress) fun writer =>
      Spec.Triple.of_pure fun hwriter => ?_
    subst hwriter
    refine source_bind (Q := fun reserved s => reserved = none ∧ Cool S t h l s)
      (Spec.Triple.pure fun s _ hP => ⟨rfl, hP⟩) fun reserved =>
        Spec.Triple.of_pure fun hreserved => ?_
    subst hreserved
    exact source_countDrop (some e)
  · have hfits : ∀ w, full w → ¬w.Fits (sizeofMessagePayload + upperBoundSize e.args) :=
      fun w hw htakes => hfull w hw (by
        unfold Takes
        rw [if_neg hbytes]
        exact htakes)
    rw [if_neg hbytes]
    refine source_bind (source_reserveRecord haddress hfits (some e)) fun slot =>
      Spec.Triple.of_pure fun hslot => ?_
    subst hslot
    exact Spec.Triple.pure fun s _ hP => hP

/-- **A cold emit** is dropped, once. -/
theorem source_emitRecord (hsegment : S.lg.segment = a.segment)
    (haddress : S.lg.address ≠ a.address) (e : Emit) :
    MovedMeets S a b start t (fun s => Cool S t h l s ∧ Cold a s t e)
      (onSource (a.emitRecord e)) fun _ => Cool S t h (l ++ [.dropped t (some e)]) := by
  have hstable : (movedSpec S a start).Stable t fun s => Cool S t h l s ∧ Cold a s t e :=
    fun s s' henv hP => ⟨hP.1.env henv,
      cold_stable hsegment e s s' henv hP.2⟩
  refine source_bind (source_loadKey hstable e.site) fun key => ?_
  by_cases hkey : key = a.segment.announceKey
  · rw [if_neg (not_not_intro hkey)]
    refine Spec.Triple.conseq (source_emitMessage haddress fun w hw => hw)
      (fun s _ hP => ⟨hP.2.1, fun howner hgeneration hvalid => ?_⟩) fun _ _ _ hQ => hQ
    exact (hP.2.2 howner hgeneration hvalid).1
  · rw [if_pos hkey]
    -- the definition is given up, and the Message with it
    refine source_bind (Spec.Triple.conseq
      (source_writeSiteDefinitionCore haddress (fun w hw => hw) (some e))
      (fun s _ hP => ⟨hP.2.1, fun howner hgeneration hvalid => ?_⟩) fun _ _ _ hQ => hQ)
      fun written => Spec.Triple.of_pure fun hwritten => ?_
    · exact (hP.2.2 howner hgeneration hvalid).2 (hP.1 ▸ hkey)
    · subst hwritten
      exact Spec.Triple.pure fun s _ hP => hP

/-! ### Calls -/

/-- The new object's code is the producer's. -/
theorem onTarget_meets {α : Type} {data : Nat} (hdata : data ≠ 0) {P : State τ → Prop} {x : Code α}
    {Q : α → State τ → Prop} (hx : S.Meets t P x Q) :
    MovedMeets S a ⟨S.lg, data⟩ start t (fun s => P s.target ∧ s.own t = l) (onTarget x)
      fun r s => Q r s.target ∧ s.own t = l := by
  refine Spec.Triple.relabel (J := movedSpec S a start) (F := fun s => s.own t = l)
    MovedState.target (fun s hinv => hinv.1) (fun s s' henv => henv.1)
    (fun s s' henv hown => henv.2.trans hown) (fun op s r s' hinv hown hsem => ?_) hx
  obtain ⟨v, hsem, rfl⟩ := hsem
  refine ⟨LoggerObject.sem_of_valid (decide_eq_true hdata) hsem, fun hinv' hguar => ?_⟩
  exact ⟨⟨hinv', hinv.2.touched, hinv.2.truncated, hinv.2.drops, hinv.2.dropped⟩,
    fun t' hne => ⟨hguar t' hne, rfl⟩, hown⟩

/-- The drops of the emits through the old object. -/
def drops {lg : Logger τ} (t : τ) (calls : List (MoveCall a lg)) : List (Event τ) :=
  (calls.filterMap MoveCall.source?).map fun e => .dropped t (some e)

/-- One call. -/
theorem moveCall_meets (hsegment : S.lg.segment = a.segment) (haddress : S.lg.address ≠ a.address)
    {data : Nat} (hdata : data ≠ 0) {before : List (Call S.lg)}
    {done rest : List (MoveCall a S.lg)} {c : MoveCall a S.lg}
    (hcalls : S.calls t = before ++ (done ++ c :: rest).filterMap MoveCall.target?)
    (hdid : S.Did t h (before ++ done.filterMap MoveCall.target?)) :
    MovedMeets S a ⟨S.lg, data⟩ start t (Cool S t h (drops t done)) c.code fun _ s =>
      ∃ h', S.Did t h' (before ++ (done ++ [c]).filterMap MoveCall.target?) ∧
        Cool S t h' (drops t (done ++ [c])) s := by
  cases c with
  | source e typed =>
    have hbegin : MovedMeets S a ⟨S.lg, data⟩ start t (Cool S t h (drops t done))
        (Prog.perform (MoveOp.begin e)) fun _ s => Cool S t h (drops t done) s ∧ Cold a s t e := by
      refine Spec.Triple.op cool_stable fun s r s' hinv hP hsem => ?_
      obtain ⟨hcold, rfl⟩ : Cold a s t e ∧ s' = s := hsem
      exact ⟨hinv, fun t' _ => (movedSpec S a start).env_refl t' s', hP, hcold⟩
    refine Spec.Triple.bind hbegin fun _ => ?_
    refine Spec.Triple.conseq (source_emitRecord hsegment haddress e) (fun s _ hP => hP)
      fun _ s _ hP => ⟨h, ?_, ?_⟩
    · rw [filterMap_concat]
      show S.Did t h (before ++ (done.filterMap MoveCall.target? ++ []))
      rw [List.append_nil]
      exact hdid
    · have hdrops : drops t (done ++ [MoveCall.source e typed]) =
          drops t done ++ [Event.dropped t (some e)] := by
        unfold drops
        rw [filterMap_concat, List.map_append]
        rfl
      rw [hdrops]
      exact hP
  | target e typed =>
    have hnext : S.calls t = (before ++ done.filterMap MoveCall.target?) ++
        .emit e typed :: rest.filterMap MoveCall.target? := by
      rw [hcalls, List.filterMap_append, List.append_assoc]
      rfl
    have hcall : S.Meets t (S.Idle t h) (S.lg.emitRecord e) _ := Setting.call_meets hnext hdid
    refine Spec.Triple.conseq (onTarget_meets (l := drops t done) hdata hcall)
      (fun s _ hP => ⟨hP.idle, hP.own⟩) fun _ s _ hP => ?_
    obtain ⟨⟨h', hdid', hidle⟩, hown⟩ := hP
    refine ⟨h', ?_, hidle, hown.trans ?_⟩
    · rw [filterMap_concat, ← List.append_assoc]
      exact hdid'
    · unfold drops
      rw [filterMap_concat]
      exact congrArg _ (List.append_nil _).symm

/-- All calls of a thread. -/
theorem moveThread_meets (hsegment : S.lg.segment = a.segment)
    (haddress : S.lg.address ≠ a.address) {data : Nat} (hdata : data ≠ 0)
    {before : List (Call S.lg)} {done calls : List (MoveCall a S.lg)}
    (hcalls : S.calls t = before ++ (done ++ calls).filterMap MoveCall.target?)
    (hdid : S.Did t h (before ++ done.filterMap MoveCall.target?)) :
    MovedMeets S a ⟨S.lg, data⟩ start t (Cool S t h (drops t done)) (moveThread calls) fun _ s =>
      ∃ h', S.Did t h' (S.calls t) ∧ Cool S t h' (drops t (done ++ calls)) s := by
  induction calls generalizing done h with
  | nil =>
    rw [List.append_nil] at hcalls ⊢
    exact Spec.Triple.pure fun s _ hP => ⟨h, hcalls ▸ hdid, hP⟩
  | cons c rest ih =>
    refine Spec.Triple.bind (moveCall_meets hsegment haddress hdata hcalls hdid) fun _ =>
      Spec.Triple.of_exists fun h' => Spec.Triple.of_pure fun hdid' => ?_
    have hrest : done ++ c :: rest = (done ++ [c]) ++ rest := by
      rw [List.append_assoc]
      rfl
    rw [hrest] at hcalls ⊢
    exact ih hcalls hdid'

/-! ### The move -/

/-- A call of the old object, as one of the new. -/
def reseat {address : Nat} : Call a → Call { a with address := address }
  | .emit e typed => .emit e typed
  | .declareSubsystem id name => .declareSubsystem id name
  | .defineSite d => .defineSite d

/-- The setting of the new object: what it logs behind what the old one logged. -/
def movedSetting (L : Launch a) (pre : τ → List (Call a)) (address : Nat)
    (post : τ → List (MoveCall a { a with address := address })) : Setting τ where
  lg := { a with address := address }
  calls := fun t => (pre t).map reseat ++ (post t).filterMap MoveCall.target?
  header := L.header
  sound := L.sound

omit [DecidableEq τ] in
theorem emits_reseat {address : Nat} (calls : List (Call a)) :
    (calls.map (reseat : Call a → Call { a with address := address })).filterMap Call.emit? =
      calls.filterMap Call.emit? := by
  rw [List.filterMap_map]
  refine List.filterMap_congr fun c _ => ?_
  cases c <;> rfl

section Move

variable {L : Launch a} {pre : τ → List (Call a)} {address : Nat}
  {post : τ → List (MoveCall a { a with address := address })} {v : State τ}

/-- What held for the old object holds for the new. -/
theorem Inv.moved (hinv : (L.setting pre).Inv v) (honly : (L.setting pre).OnlyEmits) :
    (movedSetting L pre address post).Inv v := by
  obtain ⟨hlayout, hnaming, hcounting⟩ := hinv
  refine ⟨⟨hlayout.headed, hlayout.unclaimed, hlayout.claimed, hlayout.exclusive, hlayout.shows,
    hlayout.placed, hlayout.ordered⟩, ⟨fun t x w hmem => ?_, hnaming.defined, hnaming.announced⟩,
    ⟨fun t => ?_, fun _ => hcounting.noted honly, hcounting.dropped, hcounting.truncated⟩⟩
  · have hexpected := hnaming.expected t x w hmem
    cases w with
    | message m => exact hexpected
    | definition d => exact fun _ => hexpected (oneDefinition_of_onlyEmits honly)
    | subsystem id name => exact absurd honly hexpected
  · obtain ⟨done, hprefix, houtcomes⟩ := hcounting.follows t
    refine ⟨done, hprefix.trans ?_, houtcomes⟩
    unfold Setting.emits
    show (pre t).filterMap Call.emit? <+:
      (((pre t).map reseat) ++ (post t).filterMap MoveCall.target?).filterMap Call.emit?
    rw [List.filterMap_append, emits_reseat]
    exact List.prefix_append _ _

/-- A thread that has returned is idle, and no writer of the new object is cached. -/
theorem Idle.moved (hidle : (L.setting pre).Idle t h v)
    (hfresh : (v.caches t).owner = address → (v.caches t).generation ≠ a.segment.generation) :
    (movedSetting L pre address post).Idle t h v :=
  ⟨⟨hidle.hist, hidle.quiet⟩, fun howner hgeneration => absurd hgeneration (hfresh howner)⟩

/-- The records of a Logger's segment and its drops are the emits that were made. -/
def Balanced [Fintype τ] (lg : Logger τ) (calls : τ → List (Call lg)) (v : State τ) : Prop :=
  ∃ r recs d log, ∃ fate : τ → List Outcome,
    openImage (image lg.segment v.mapped) = .ok r ∧
    decodeAll Decoder.fresh r = .ok (recs, d) ∧
    recs.length + v.dropped = ∑ t, (calls t).length ∧
    d.undecodable = 0 ∧ d.skipped = 0 ∧
    (∀ t, List.Forall₂ lg.OutcomeOf ((calls t).filterMap Call.emit?) (fate t)) ∧
    v.dropped = ∑ t, ((fate t).filterMap droppedOf).length ∧
    List.Forall₂ (DeliversFrom lg) log recs ∧
    (∀ t, (log.filter fun x => x.1 = t).map Prod.snd = (fate t).filterMap writtenOf) ∧
    recs.Pairwise fun a b => a.recordOffset < b.recordOffset

/-- **One owner after a move.** Threads emit through a Logger; when none is in one it is moved,
and they go on through the old object, where they have no writer of it with room, and through
the new. In every state this leads to the old object, which is not valid, has stored nowhere
and only dropped; in the end it has dropped each of its emits once, and the new object's
ledger balances. -/
theorem move_one_owner [Fintype τ] (L : Launch a) {pre : τ → List (Call a)}
    (honly : ∀ t, ∀ c ∈ pre t, c.emit? ≠ none) {p : Pool Op.Answer τ (State τ) Unit}
    (hrun : Reachable (Producer.sem a) (L.pool pre) p) (hfinished : p.Finished)
    {data address : Nat} (hdata : data ≠ 0) (haddress : address ≠ a.address)
    (hfresh : ∀ t, (p.shared.caches t).owner = address →
      (p.shared.caches t).generation ≠ a.segment.generation)
    {post : τ → List (MoveCall a { a with address := address })}
    {q : Pool MoveOp.Answer τ (MovedState τ) Unit}
    (hmoved : Reachable (moveSem ((LoggerObject.mk a data).move address).2
      ((LoggerObject.mk a data).move address).1 (Cold a))
      ⟨.ofMove p.shared, fun t => moveThread (post t)⟩ q) :
    ((LoggerObject.mk a data).move address).2.valid = false ∧
    q.shared.touched = [] ∧ q.shared.truncated = p.shared.truncated ∧
    (∀ e ∈ q.shared.trace, e.isDrop = true) ∧
    q.shared.dropped = (p.shared.dropped + q.shared.trace.length) % a.counterWrap ∧
    (q.Finished → (∀ t, q.shared.own t = drops t (post t)) ∧
      (q.shared.target.trace.countP Event.isDrop < a.counterWrap →
        Balanced { a with address := address }
          (fun t => (pre t).map reseat ++ (post t).filterMap MoveCall.target?) q.shared.target)) := by
  obtain ⟨hinv, hreturned⟩ := Launch.finished hrun hfinished
  let S := movedSetting L pre address post
  let start := MovedState.ofMove p.shared
  have hstart : S.Inv start.target ∧ OnlyDropped a start start := by
    refine ⟨Inv.moved hinv honly, rfl, rfl, fun e he => (by cases he), ?_⟩
    show p.shared.dropped = (p.shared.dropped + 0) % a.counterWrap
    have hcount : p.shared.dropped = p.shared.trace.countP Event.isDrop % a.counterWrap :=
      hinv.counting.dropped
    rw [Nat.add_zero, hcount, Nat.mod_mod]
  -- every thread begins idle, with what it logged before the move
  have hidle : ∀ t, ∃ h, S.Did t h ((pre t).map reseat) ∧ Cool S t h [] start := by
    intro t
    obtain ⟨h, hdid, hidle⟩ := hreturned t
    have hsame : List.Forall₂ a.OutcomeOf (((pre t).map (reseat : Call a →
        Call { a with address := address })).filterMap Call.emit?) (outcomes h) := by
      rw [emits_reseat]
      exact hdid
    exact ⟨h, hsame, Idle.moved hidle (hfresh t), rfl⟩
  have htriple : ∀ t, MovedMeets S a ⟨S.lg, data⟩ start t
      (fun s => ∃ h, S.Did t h ((pre t).map reseat) ∧ Cool S t h [] s) (moveThread (post t))
      fun _ s => ∃ h', S.Did t h' (S.calls t) ∧ Cool S t h' (drops t (post t)) s := by
    refine fun t => Spec.Triple.of_exists fun h => Spec.Triple.of_pure fun hdid => ?_
    have hcalls : S.calls t = (pre t).map reseat ++ ([] ++ post t).filterMap MoveCall.target? := rfl
    have hsegment : S.lg.segment = a.segment := rfl
    have hnil : ∀ calls, S.Did t h calls → S.Did t h (calls ++ []) := fun calls hcalls =>
      (List.append_nil calls).symm ▸ hcalls
    exact moveThread_meets hsegment haddress hdata hcalls (hnil _ hdid)
  have hstable : ∀ t, ∀ _ : Unit, (movedSpec S a start).Stable t
      fun s => ∃ h', S.Did t h' (S.calls t) ∧ Cool S t h' (drops t (post t)) s := by
    rintro t - s s' henv ⟨h', hdid, hcool⟩
    exact ⟨h', hdid, hcool.env henv⟩
  obtain ⟨hq, -⟩ := Spec.reachable (S := movedSpec S a start)
    (p := ⟨start, fun t => moveThread (post t)⟩) hstable hstart hidle htriple hmoved
  refine ⟨rfl, hq.2.touched, hq.2.truncated, hq.2.drops, hq.2.dropped, fun hdone => ?_⟩
  obtain ⟨-, hall⟩ := Spec.finished (S := movedSpec S a start)
    (p := ⟨start, fun t => moveThread (post t)⟩) hstable hstart hidle htriple hmoved hdone
  refine ⟨fun t => ?_, fun hwrap => ledger_of_returned hq.1 ?_ (fun t => ?_) hwrap⟩
  · obtain ⟨-, h', -, hcool⟩ := hall t
    exact hcool.own
  · -- there are only emits
    intro t c hc
    rcases List.mem_append.mp hc with hc | hc
    · obtain ⟨c', hc', rfl⟩ := List.mem_map.mp hc
      have hemit := honly t c' hc'
      cases c' with
      | emit e typed => exact Option.some_ne_none _
      | declareSubsystem | defineSite => exact absurd rfl hemit
    · obtain ⟨c', -, heq⟩ := List.mem_filterMap.mp hc
      cases c' with
      | source => cases heq
      | target e typed =>
        obtain rfl := Option.some.inj heq
        exact Option.some_ne_none _
  · obtain ⟨-, h', hdid, hcool⟩ := hall t
    exact ⟨h', hdid, hcool.idle⟩

end Move

/-! ### Runs behind a move -/

/-- One answer of an object's code. -/
def LoggerObject.answer (o : LoggerObject τ) (t : τ) : (op : Op) → State τ → op.Answer × State τ
  | .claimChunkIndex, s => o.claimChunkIndex t s
  | op, s => System.answer o.logger t op s

theorem LoggerObject.sem_answer (o : LoggerObject τ) (t : τ) (op : Op) (s : State τ) :
    o.sem t op s (o.answer t op s).1 (o.answer t op s).2 := by
  cases op with
  | claimChunkIndex => exact rfl
  | loadKey | currentThreadId | loadCache => exact ⟨rfl, rfl⟩
  | copyOrder => exact ⟨List.Perm.refl _, rfl⟩
  | _ => rfl

def moveAnswer (a b : LoggerObject τ) (t : τ) : (op : MoveOp) → MovedState τ →
    op.Answer × MovedState τ
  | .begin _, s => ((), s)
  | .source op, s =>
    let r := a.answer t op s.source
    (r.1,
      { target := { r.2 with
          dropped := s.target.dropped
          truncated := s.target.truncated
          trace := s.target.trace }
        dropped := r.2.dropped
        truncated := r.2.truncated
        trace := r.2.trace
        touched := s.touched ++ touches op })
  | .target op, s =>
    let r := b.answer t op s.target
    (r.1, { s with target := r.2 })

/-- The answers are given where emits may begin. -/
theorem moveSem_answer {a b : LoggerObject τ} {cond : MovedState τ → τ → Emit → Prop} {t : τ}
    {ok : MoveOp → MovedState τ → Bool} (hok : ∀ e s, ok (.begin e) s = true → cond s t e)
    (op : MoveOp) (s : MovedState τ) (h : ok op s = true) :
    moveSem a b cond t op s (moveAnswer a b t op s).1 (moveAnswer a b t op s).2 := by
  cases op with
  | begin e => exact ⟨hok e s h, rfl⟩
  | source op => exact ⟨_, a.sem_answer t op s.source, rfl⟩
  | target op => exact ⟨_, b.sem_answer t op s.target, rfl⟩

/-- What is left of a thread's calls. -/
def runMoved (a b : LoggerObject τ) (t : τ) (p : Pool MoveOp.Answer τ (MovedState τ) Unit) :
    Pool MoveOp.Answer τ (MovedState τ) Unit :=
  ⟨((p.prog t).exec (moveAnswer a b t) p.shared).2, Function.update p.prog t (.ret ())⟩

omit [DecidableEq τ] in
instance (w : ChunkWriter) (args : List Arg) : Decidable (Takes w args) :=
  if h : cHasByteArg args then
    decidable_of_iff (messagePayloadBytes args ≤ 0xFFFF ∧ w.offset + chainBytes args ≤ w.size) (by
      unfold Takes
      rw [if_pos h]
      rfl)
  else
    decidable_of_iff (sizeofMessagePayload + upperBoundSize args ≤ 0xFFFF ∧
      w.offset + recordFootprint (sizeofMessagePayload + upperBoundSize args) ≤ w.size) (by
        unfold Takes
        rw [if_neg h]
        rfl)

instance (w : ChunkWriter) (n : Nat) : Decidable (w.Fits n) :=
  inferInstanceAs (Decidable (n ≤ 0xFFFF ∧ w.offset + recordFootprint n ≤ w.size))

instance (a : Logger τ) (s : MovedState τ) (t : τ) (e : Emit) : Decidable (Cold a s t e) :=
  inferInstanceAs (Decidable (_ → _ → _ → _ ∧ (_ → _)))

/-- Emits begin where they are cold. -/
def coldOk (a : Logger τ) (t : τ) : MoveOp → MovedState τ → Bool
  | .begin e, s => decide (Cold a s t e)
  | .source _, _ | .target _, _ => true

/-- The two objects, the new one at address 16. -/
def movedObjects : LoggerObject Unit × LoggerObject Unit :=
  (LoggerObject.mk (smallLogger 3 plainSite) 8).move 16

/-- An emit through the new object, then one through the old. -/
def coldCalls (_ : Unit) :
    List (MoveCall (smallLogger 3 plainSite) { smallLogger 3 plainSite with address := 16 }) :=
  [.target ⟨16, [], 9⟩ rfl, .source ⟨16, [], 7⟩ rfl]

def coldPool : Pool MoveOp.Answer Unit (MovedState Unit) Unit :=
  ⟨.ofMove twoEmitsRun.shared, fun t => moveThread (coldCalls t)⟩

theorem move_one_owner_cold :
    ((LoggerObject.mk (smallLogger 3 plainSite) 8).move 16).2.valid = false ∧
    (runMoved movedObjects.2 movedObjects.1 () coldPool).shared.touched = [] ∧
    (runMoved movedObjects.2 movedObjects.1 () coldPool).shared.truncated =
      twoEmitsRun.shared.truncated ∧
    (∀ e ∈ (runMoved movedObjects.2 movedObjects.1 () coldPool).shared.trace, e.isDrop = true) ∧
    (runMoved movedObjects.2 movedObjects.1 () coldPool).shared.dropped =
      (twoEmitsRun.shared.dropped +
        (runMoved movedObjects.2 movedObjects.1 () coldPool).shared.trace.length) %
          (smallLogger 3 plainSite).counterWrap ∧
    ((runMoved movedObjects.2 movedObjects.1 () coldPool).Finished →
      (∀ t, (runMoved movedObjects.2 movedObjects.1 () coldPool).shared.own t =
        drops t (coldCalls t)) ∧
      ((runMoved movedObjects.2 movedObjects.1 () coldPool).shared.target.trace.countP
          Event.isDrop < (smallLogger 3 plainSite).counterWrap →
        Balanced { smallLogger 3 plainSite with address := 16 }
          (fun t => (twoEmits t).map reseat ++ (coldCalls t).filterMap MoveCall.target?)
          (runMoved movedObjects.2 movedObjects.1 () coldPool).shared.target)) := by
  have hpasses : (coldPool.prog ()).passes (moveAnswer movedObjects.2 movedObjects.1 ())
      (coldOk (smallLogger 3 plainSite) ()) coldPool.shared = true := by
    decide +kernel
  have hanswer : ∀ op s, coldOk (smallLogger 3 plainSite) () op s = true →
      moveSem movedObjects.2 movedObjects.1 (Cold (smallLogger 3 plainSite)) () op s
        (moveAnswer movedObjects.2 movedObjects.1 () op s).1
        (moveAnswer movedObjects.2 movedObjects.1 () op s).2 :=
    moveSem_answer fun e s h => of_decide_eq_true h
  have hother : (twoEmitsRun.shared.caches ()).owner ≠ 16 := by decide +kernel
  exact move_one_owner (smallLaunch (by decide) plainSite) twoEmits_only twoEmitsRun_reachable
    (fun _ => ⟨(), rfl⟩) (by decide) (by decide) (fun _ howner => absurd howner hother)
    (passes_reachable hanswer coldPool hpasses).reachable

/-- An emit through the old object, its thread's chunk being half full. -/
def warmCalls (_ : Unit) :
    List (MoveCall (smallLogger 3 plainSite) { smallLogger 3 plainSite with address := 16 }) :=
  [.source ⟨16, [], 7⟩ rfl]

def warmPool : Pool MoveOp.Answer Unit (MovedState Unit) Unit :=
  ⟨.ofMove twoEmitsRun.shared, fun t => moveThread (warmCalls t)⟩

/-- Wherever emits may begin, one is written into the storage of the new object, and no drop
is counted. -/
theorem move_two_owners :
    ¬ ∀ (L : Launch (smallLogger 3 plainSite)) (pre : Unit → List (Call (smallLogger 3 plainSite)))
      (p : Pool Op.Answer Unit (State Unit) Unit), (∀ t, ∀ c ∈ pre t, c.emit? ≠ none) →
      Reachable (Producer.sem (smallLogger 3 plainSite)) (L.pool pre) p → p.Finished →
      ∀ (data address : Nat), data ≠ 0 → address ≠ (smallLogger 3 plainSite).address →
      (∀ t, (p.shared.caches t).owner = address →
        (p.shared.caches t).generation ≠ (smallLogger 3 plainSite).segment.generation) →
      ∀ (post : Unit → List (MoveCall (smallLogger 3 plainSite)
          { smallLogger 3 plainSite with address := address }))
        (q : Pool MoveOp.Answer Unit (MovedState Unit) Unit),
        Reachable (moveSem ((LoggerObject.mk (smallLogger 3 plainSite) data).move address).2
          ((LoggerObject.mk (smallLogger 3 plainSite) data).move address).1 fun _ _ _ => True)
          ⟨.ofMove p.shared, fun t => moveThread (post t)⟩ q →
        q.shared.touched = [] ∧ (q.Finished → ∀ t, q.shared.own t = drops t (post t)) := by
  intro hall
  have hpasses : (warmPool.prog ()).passes (moveAnswer movedObjects.2 movedObjects.1 ())
      (fun _ _ => true) warmPool.shared = true := passes_of_all _ _ _
  have hanswer : ∀ op s, true = true →
      moveSem movedObjects.2 movedObjects.1 (fun _ _ _ => True) () op s
        (moveAnswer movedObjects.2 movedObjects.1 () op s).1
        (moveAnswer movedObjects.2 movedObjects.1 () op s).2 :=
    moveSem_answer fun _ _ _ => trivial
  have hother : (twoEmitsRun.shared.caches ()).owner ≠ 16 := by decide +kernel
  obtain ⟨htouched, -⟩ := hall (smallLaunch (by decide) plainSite) twoEmits twoEmitsRun
    twoEmits_only twoEmitsRun_reachable (fun _ => ⟨(), rfl⟩) 8 16 (by decide) (by decide)
    (fun _ howner => absurd howner hother) warmCalls
    (runMoved movedObjects.2 movedObjects.1 () warmPool)
    (passes_reachable hanswer warmPool hpasses).reachable
  revert htouched
  decide +kernel

end Sub0Log.System
