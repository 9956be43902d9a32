import Sub0Log.Producer.Discipline
import Sub0Log.System.Ledger

/-!
# Several Loggers in one process

`ScopedBind` binds one Logger after another: a test substitutes its own, a Logger is created again
at the address of an old one. What the threads keep from one binding to the next are their writer
caches, one a thread, and the keys of the call sites, one a site: both name one Logger at a time.

A `Fleet` is any number of Loggers in created segments, told apart by their generations and their
announce keys. In a phase one of them is bound and every thread makes some calls and returns; the
phases follow each other in any order, and a Logger may be bound again and again.

* `Renewed` — a phase leaves a cache or a key as it was, or its own Logger's.
* `phases_inv` — every Logger keeps its invariant through all phases, its own by what its threads
  do and the others because nothing of theirs is forged.
* **`rebind_ledger`** — so each Logger's ledger balances over all the calls that were made while it
  was bound.
-/

open Bytes Interleaving

namespace Sub0Log.System

open Wire Reader Producer

variable {τ : Type}

/-! ### What a phase leaves behind -/

/-- A cache or a key is what it was, or the Logger's. -/
structure Renewed (lg : Logger τ) (start s : State τ) : Prop where
  caches : ∀ t, s.caches t = start.caches t ∨ Tagged lg (s.caches t)
  keys : ∀ id, s.keys id = start.keys id ∨ s.keys id = lg.segment.announceKey

/-- The proof method's parameters: a thread's cache is its own. -/
def renewal (lg : Logger τ) (start : State τ) : Spec τ (State τ) where
  inv := Renewed lg start
  env := fun t s s' => s'.caches t = s.caches t
  env_refl := fun _ _ => rfl
  env_trans := fun _ _ _ _ h h' => h'.trans h

/-- The thread's cache is the Logger's, if `b` says so. -/
def Own (lg : Logger τ) (b : Bool) (t : τ) (s : State τ) : Prop :=
  b = true → Tagged lg (s.caches t)

section Renewal

variable [DecidableEq τ] {lg : Logger τ} {start : State τ} {t : τ} {b : Bool} {α β : Type}

/-- Code of thread `t` from a cache that is the Logger's, if `b` says so. -/
abbrev Renews (lg : Logger τ) (start : State τ) (t : τ) (b : Bool) (x : Code α)
    (Q : α → State τ → Prop) : Prop :=
  (renewal lg start).Triple (sem lg) t (Own lg b t) x Q

omit [DecidableEq τ] in
theorem own_stable : (renewal lg start).Stable t (Own lg b t) := by
  intro s s' henv hown hb
  rw [show s'.caches t = s.caches t from henv]
  exact hown hb

/-- An operation that changes neither a cache nor a key. -/
def Op.Steady : Op → Prop
  | .storeCache _ | .storeKey _ _ => False
  | .loadKey _ | .claimChunkIndex | .currentThreadId | .monotonicNow | .loadCache | .copyOrder _
  | .storeByte _ _ | .store64 _ _ _ | .storeLow32 _ _ | .storeHigh32 _ _ _ | .countDrop _
  | .countTruncation => True

theorem Op.Steady.same {op : Op} (h : Op.Steady op) {s s' : State τ} {r : op.Answer}
    (hsem : sem lg t op s r s') : s'.caches = s.caches ∧ s'.keys = s.keys := by
  cases op with
  | storeCache | storeKey => exact absurd h id
  | claimChunkIndex =>
    have hs : s' = (claimChunkIndex lg t s).2 := congrArg Prod.snd hsem
    rw [hs]
    unfold claimChunkIndex
    split
    · exact ⟨rfl, rfl⟩
    · split <;> exact ⟨rfl, rfl⟩
  | loadKey | currentThreadId | loadCache | copyOrder =>
    rw [(show s' = s from hsem.2)]
    exact ⟨rfl, rfl⟩
  | monotonicNow =>
    rw [(show s' = s from hsem)]
    exact ⟨rfl, rfl⟩
  | _ =>
    rw [(show s' = _ from hsem)]
    exact ⟨rfl, rfl⟩

/-- Steady code. -/
theorem renews_of_steady {x : Code α} (h : x.Only Op.Steady) :
    Renews lg start t b x fun _ => Own lg b t := by
  induction x with
  | ret a => exact Spec.Triple.pure fun _ _ hP => hP
  | op i next ih =>
    have hop : Renews lg start t b (Prog.perform i) fun _ => Own lg b t := by
      refine Spec.Triple.op own_stable fun s r s' hinv hown hsem => ?_
      obtain ⟨hcaches, hkeys⟩ := Op.Steady.same h.1 hsem
      refine ⟨⟨?_, ?_⟩, fun t' _ => congrFun hcaches t', ?_⟩
      · rw [hcaches]
        exact hinv.caches
      · rw [hkeys]
        exact hinv.keys
      · intro hb
        rw [hcaches]
        exact hown hb
    exact Spec.Triple.bind hop fun r => ih r (h.2 r)

/-- The cache that is loaded is the thread's. -/
theorem loadCache_renews : Renews lg start t b loadCache fun cache s => Own lg b t s ∧
    (b = true → Tagged lg cache) ∧ (Tagged lg cache → True ∧ Own lg true t s) := by
  refine Spec.Triple.op own_stable fun s r s' hinv hown hsem => ?_
  obtain ⟨rfl, rfl⟩ : r = s.caches t ∧ s' = s := hsem
  exact ⟨hinv, fun t' _ => rfl, hown, hown, fun htagged => ⟨trivial, fun _ => htagged⟩⟩

/-- Only caches of the Logger are stored. -/
theorem storeCache_renews {P : State τ → Prop} (hP : (renewal lg start).Stable t P)
    {cache : WriterCache} (h : Tagged lg cache) :
    (renewal lg start).Triple (sem lg) t P (storeCache cache) fun _ => Own lg true t := by
  refine Spec.Triple.op hP fun s r s' hinv _ hsem => ?_
  obtain rfl : s' = { s with caches := Function.update s.caches t cache } := hsem
  refine ⟨⟨fun t' => ?_, hinv.keys⟩, fun t' hne => Function.update_of_ne hne _ _, fun _ => ?_⟩
  · show Function.update s.caches t cache t' = start.caches t' ∨
      Tagged lg (Function.update s.caches t cache t')
    by_cases heq : t' = t
    · rw [heq, Function.update_self]
      exact Or.inr h
    · rw [Function.update_of_ne heq]
      exact hinv.caches t'
  · show Tagged lg (Function.update s.caches t cache t)
    rw [Function.update_self]
    exact h

/-- And only its key. -/
theorem storeKey_renews (id : UInt64) :
    Renews lg start t b (storeKey id lg.segment.announceKey) fun _ => Own lg b t := by
  refine Spec.Triple.op own_stable fun s r s' hinv hown hsem => ?_
  obtain rfl : s' = { s with keys := Function.update s.keys id lg.segment.announceKey } := hsem
  refine ⟨⟨hinv.caches, fun id' => ?_⟩, fun _ _ => rfl, hown⟩
  show Function.update s.keys id lg.segment.announceKey id' = start.keys id' ∨
    Function.update s.keys id lg.segment.announceKey id' = lg.segment.announceKey
  by_cases heq : id' = id
  · rw [heq, Function.update_self]
    exact Or.inr rfl
  · rw [Function.update_of_ne heq]
    exact hinv.keys id'

/-! ### Steady code -/

theorem storeBytes_steady (a : Nat) (bytes : List UInt8) (order : List Nat) :
    (storeBytes a bytes order).Only Op.Steady := by
  induction order with
  | nil => exact trivial
  | cons i rest ih => exact Prog.Only.bind (Prog.Only.perform trivial) fun _ => ih

theorem copyBytes_steady (a : Nat) (bytes : List UInt8) : (copyBytes a bytes).Only Op.Steady :=
  Prog.Only.bind (Prog.Only.perform trivial) fun order => storeBytes_steady a bytes order

omit [DecidableEq τ] in
theorem claimChunk_steady : lg.claimChunk.Only Op.Steady := by
  refine Prog.Only.bind (Prog.Only.perform trivial) fun index => ?_
  split
  · exact trivial
  · refine Prog.Only.bind (Prog.Only.perform trivial) fun _ => ?_
    refine Prog.Only.bind (Prog.Only.perform trivial) fun _ => ?_
    exact Prog.Only.bind (copyBytes_steady _ _) fun _ => trivial

omit [DecidableEq τ] in
theorem storeHeadWord_steady (address word : Nat) (publishes : Option Written) :
    (lg.storeHeadWord address word publishes).Only Op.Steady := by
  unfold Logger.storeHeadWord
  split
  · exact Prog.Only.bind (Prog.Only.perform trivial) fun _ => Prog.Only.perform trivial
  · exact Prog.Only.perform trivial

/-- The discipline: nothing is asked of writers and places, only whose cache it is. -/
def renewing (lg : Logger τ) (start : State τ) (t : τ) :
    Discipline lg (renewal lg start) (sem lg) t where
  own := fun b => Own lg b t
  own_any := fun _ _ _ hb => absurd hb Bool.false_ne_true
  Writer := fun _ => True
  Slot := fun _ _ => True
  reserved := fun _ _ => ⟨trivial, trivial⟩
  onLoadKey := fun _ _ => renews_of_steady (Prog.Only.perform trivial)
  onStoreKey := fun _ id => storeKey_renews id
  onMonotonicNow := fun _ => renews_of_steady (Prog.Only.perform trivial)
  onCountDrop := fun _ _ => renews_of_steady (Prog.Only.perform trivial)
  onCountTruncation := fun _ => renews_of_steady (Prog.Only.perform trivial)
  onLoadCache := fun _ => loadCache_renews
  onStoreCache := fun _ _ h _ => storeCache_renews own_stable h
  onClaimChunk := fun _ => Spec.Triple.conseq (renews_of_steady claimChunk_steady)
    (fun _ _ hP => hP) fun _ _ _ hQ => ⟨trivial, hQ⟩
  onCopyBytes := fun _ _ _ _ => renews_of_steady (copyBytes_steady _ _)
  onStoreHeadWord := fun _ _ _ word publishes _ =>
    renews_of_steady (storeHeadWord_steady _ word publishes)

/-- **What a phase leaves behind**: of every cache and key what it was, or the Logger's own. -/
theorem renewed_of_reachable {calls : τ → List (Call lg)} {p : Pool Op.Answer τ (State τ) Unit}
    (h : Reachable (sem lg) ⟨start, fun t => lg.thread (calls t)⟩ p) :
    Renewed lg start p.shared := by
  have hstart : Renewed lg start start := ⟨fun _ => Or.inl rfl, fun _ => Or.inl rfl⟩
  have hthreads : ∀ t, Renews lg start t false (lg.thread (calls t)) fun _ => Own lg false t :=
    fun t => Discipline.thread_keeps (renewing lg start t) (calls t)
  exact (Spec.reachable (S := renewal lg start) (p := ⟨start, fun t => lg.thread (calls t)⟩)
    (fun _ _ => own_stable) hstart (fun _ hb => absurd hb Bool.false_ne_true) hthreads h).1

end Renewal

/-! ### Fleets -/

/-- Loggers in created segments that readers open, no two of one generation or one key. Their
addresses may be the same: a Logger may be created where another one was. -/
structure Fleet (κ τ : Type) where
  logger : κ → Logger τ
  mem : κ → Mem
  created : ∀ k, Creates (logger k).segment (mem k)
  opens : ∀ k, ∃ r, openImage (image (logger k).segment (mem k)) = .ok r
  generations : Function.Injective fun k => (logger k).segment.generation
  announceKeys : Function.Injective fun k => (logger k).segment.announceKey

/-- A process with several segments. The threads' caches and the sites' keys are there once; those
in `segments` are not read. -/
structure Process (κ τ : Type) where
  segments : κ → State τ
  keys : UInt64 → UInt64
  caches : τ → WriterCache

namespace Process

variable {κ : Type}

/-- What a thread sees while Logger `k` is bound. -/
def view (p : Process κ τ) (k : κ) : State τ :=
  { p.segments k with keys := p.keys, caches := p.caches }

/-- The process after a phase of Logger `k` that ended in `s`. -/
def after [DecidableEq κ] (p : Process κ τ) (k : κ) (s : State τ) : Process κ τ :=
  ⟨Function.update p.segments k s, s.keys, s.caches⟩

@[simp] theorem after_view_self [DecidableEq κ] (p : Process κ τ) (k : κ) (s : State τ) :
    (p.after k s).view k = s := by
  have hself : (p.after k s).segments k = s := Function.update_self ..
  unfold view
  rw [hself]
  rfl

theorem after_view_ne [DecidableEq κ] (p : Process κ τ) {k k' : κ} (s : State τ) (hne : k' ≠ k) :
    (p.after k s).view k' = { p.segments k' with keys := s.keys, caches := s.caches } := by
  have hother : (p.after k s).segments k' = p.segments k' := Function.update_of_ne hne ..
  unfold view
  rw [hother]
  rfl

end Process

/-- A segment as it is initialised has a generation and a key that are not zero. -/
theorem initialise_ids_ne (p : Platform) (m : Mem) {size : Nat} (hsize : size ≤ 2 ^ 63 - 1)
    (headerBytes : Nat) (chunkBytes : UInt32) :
    (Segment.initialise p m size hsize headerBytes chunkBytes).1.generation ≠ 0 ∧
      (Segment.initialise p m size hsize headerBytes chunkBytes).1.announceKey ≠ 0 := by
  refine ⟨p.generation_ne, ?_⟩
  show (if p.split then p.splitKey.toUInt64 else p.generation) ≠ 0
  split
  · intro hzero
    refine p.splitKey_ne (UInt32.toNat_inj.mp ?_)
    rw [← UInt32.toNat_toUInt64, hzero]
    rfl
  · exact p.generation_ne

theorem Creates.ids_ne {seg : Segment} {m : Mem} (h : Creates seg m) :
    seg.generation ≠ 0 ∧ seg.announceKey ≠ 0 := by
  cases h with
  | file p options h =>
    obtain ⟨-, hsize, heq⟩ := Segment.create_eq_ok h
    rw [(Prod.mk.inj heq).1]
    exact initialise_ids_ne p (fun _ => 0) hsize _ _
  | memory p storage options h =>
    obtain ⟨-, -, heq⟩ := Segment.createInMemory_eq_ok h
    rw [(Prod.mk.inj heq).1]
    exact initialise_ids_ne p (storage.contents.store 0 (List.replicate storage.size 0))
      storage.size_le _ _

namespace Fleet

variable {κ : Type} (F : Fleet κ τ)

/-- Nothing was bound yet: the keys are zero and the caches are empty. -/
def start : Process κ τ where
  segments := fun k => ⟨F.mem k, 0, fun _ => 0, fun _ => ⟨0, 0, ChunkWriter.none⟩, 0, 0, []⟩
  keys := fun _ => 0
  caches := fun _ => ⟨0, 0, ChunkWriter.none⟩

/-- For each of its Loggers alone this is a launch. -/
def launch (k : κ) : Launch (F.logger k) where
  mem := F.mem k
  created := F.created k
  opens := F.opens k
  start := F.start.view k
  untouched :=
    ⟨rfl, rfl, fun _ => (F.created k).ids_ne.2.symm, fun _ _ => (F.created k).ids_ne.1.symm,
      rfl, rfl, rfl⟩

/-- One binding: the Logger, and the calls each thread makes while it is bound. -/
structure Phase where
  bound : κ
  calls : τ → List (Call (F.logger bound))

variable {F} [DecidableEq κ]

namespace Phase

/-- The calls of a phase to Logger `k`. -/
def callsTo (ph : F.Phase) (k : κ) (t : τ) : List (Call (F.logger k)) :=
  if h : ph.bound = k then h ▸ ph.calls t else []

@[simp] theorem callsTo_self (ph : F.Phase) (t : τ) : ph.callsTo ph.bound t = ph.calls t :=
  dif_pos rfl

theorem callsTo_ne (ph : F.Phase) {k : κ} (hne : ph.bound ≠ k) (t : τ) : ph.callsTo k t = [] :=
  dif_neg hne

/-- What the threads run. -/
def pool (ph : F.Phase) (p : Process κ τ) : Pool Op.Answer τ (State τ) Unit :=
  ⟨p.view ph.bound, fun t => (F.logger ph.bound).thread (ph.calls t)⟩

end Phase

/-- All calls to Logger `k`. -/
def callsTo (phases : List F.Phase) (k : κ) (t : τ) : List (Call (F.logger k)) :=
  phases.flatMap fun ph => ph.callsTo k t

variable [DecidableEq τ]

/-- A run through some phases: in each the threads interleave as they like, and all return. -/
inductive Phases (F : Fleet κ τ) : List F.Phase → Process κ τ → Prop
  | start : Phases F [] F.start
  | bind {phases : List F.Phase} {p : Process κ τ} (ph : F.Phase)
      {q : Pool Op.Answer τ (State τ) Unit} (h : Phases F phases p)
      (hrun : Reachable (sem (F.logger ph.bound)) (ph.pool p) q) (hfinished : q.Finished) :
      Phases F (phases ++ [ph]) (p.after ph.bound q.shared)

/-- The setting of Logger `k` in a run through the phases. -/
def setting (F : Fleet κ τ) (phases : List F.Phase) (k : κ) : Setting τ :=
  (F.launch k).setting (callsTo phases k)

/-- Between two phases: every Logger's invariant holds, and every thread has done its calls. -/
def Kept (F : Fleet κ τ) (phases done : List F.Phase) (p : Process κ τ) : Prop :=
  ∀ k, (F.setting phases k).Inv (p.view k) ∧
    ∀ t, ∃ h, (F.setting phases k).Did t h (callsTo done k t) ∧
      (F.setting phases k).Idle t h (p.view k)

theorem start_kept (phases : List F.Phase) : F.Kept phases [] F.start := fun k =>
  ⟨(F.launch k).start_inv _, fun t => ⟨[], List.Forall₂.nil, (F.launch k).start_idle _ t⟩⟩

/-- A stretch of a thread's calls. -/
theorem stretch_meets {S : Setting τ} {t : τ} {h : List (Event τ)}
    {done calls rest : List (Call S.lg)} (hcalls : S.calls t = done ++ (calls ++ rest))
    (hdid : S.Did t h done) :
    S.Meets t (S.Idle t h) (S.lg.thread calls) fun _ s =>
      ∃ h', S.Did t h' (done ++ calls) ∧ S.Idle t h' s := by
  induction calls generalizing done h with
  | nil =>
    rw [List.append_nil]
    exact Spec.Triple.pure fun s _ hP => ⟨h, hdid, hP⟩
  | cons call calls ih =>
    have happend : done ++ call :: calls = done ++ [call] ++ calls :=
      (List.append_assoc done [call] calls).symm
    rw [happend]
    refine Spec.Triple.bind (Setting.call_meets hcalls hdid) fun _ =>
      Spec.Triple.of_exists fun h' => Spec.Triple.of_pure fun hdid' => ?_
    refine ih ?_ hdid'
    rw [hcalls, List.append_assoc]
    rfl

omit [DecidableEq τ] in
/-- What is left of its calls a thread has still to make. -/
theorem callsTo_split (done rest : List F.Phase) (ph : F.Phase) (t : τ) :
    callsTo (done ++ ph :: rest) ph.bound t =
      callsTo done ph.bound t ++ (ph.calls t ++ callsTo rest ph.bound t) := by
  unfold callsTo
  rw [List.flatMap_append, List.flatMap_cons, Phase.callsTo_self]

variable {phases done rest : List F.Phase} {ph : F.Phase} {p : Process κ τ}
  {q : Pool Op.Answer τ (State τ) Unit}

/-- The Logger that is bound keeps its invariant by what its threads do. -/
theorem bound_kept (hphases : phases = done ++ ph :: rest) (h : F.Kept phases done p)
    (hrun : Reachable (sem (F.logger ph.bound)) (ph.pool p) q) :
    (F.setting phases ph.bound).Inv q.shared ∧
      (q.Finished → ∀ t, ∃ h, (F.setting phases ph.bound).Did t h
        (callsTo (done ++ [ph]) ph.bound t) ∧ (F.setting phases ph.bound).Idle t h q.shared) := by
  obtain ⟨hinv, hthreads⟩ := h ph.bound
  choose hist hdid hidle using hthreads
  have hcalls : ∀ t, (F.setting phases ph.bound).calls t =
      callsTo done ph.bound t ++ (ph.calls t ++ callsTo rest ph.bound t) := by
    intro t
    rw [← callsTo_split, ← hphases]
    rfl
  have hstable : ∀ t, (F.setting phases ph.bound).Stable t fun s =>
      ∃ h, (F.setting phases ph.bound).Did t h (callsTo done ph.bound t ++ ph.calls t) ∧
        (F.setting phases ph.bound).Idle t h s := by
    rintro t s s' henv ⟨h, hdid, hidle⟩
    exact ⟨h, hdid, Setting.idle_stable s s' henv hidle⟩
  obtain ⟨hinv', hwp⟩ := Spec.reachable (S := (F.setting phases ph.bound).spec) (p := ph.pool p)
    (fun t _ => hstable t) hinv hidle (fun t => stretch_meets (hcalls t) (hdid t)) hrun
  refine ⟨hinv', fun hfinished t => ?_⟩
  obtain ⟨a, ha⟩ := hfinished t
  have ht := hwp t
  rw [ha] at ht
  have hdone : callsTo (done ++ [ph]) ph.bound t = callsTo done ph.bound t ++ ph.calls t := by
    rw [callsTo_split]
    exact congrArg _ (List.append_nil _)
  rw [hdone]
  exact ht

/-- The other Loggers keep theirs: what a phase leaves in the caches and the keys is not theirs. -/
theorem other_kept (h : F.Kept phases done p)
    (hrun : Reachable (sem (F.logger ph.bound)) (ph.pool p) q) {k : κ} (hne : k ≠ ph.bound) :
    (F.setting phases k).Inv ((p.after ph.bound q.shared).view k) ∧
      ∀ t, ∃ h, (F.setting phases k).Did t h (callsTo done k t) ∧
        (F.setting phases k).Idle t h ((p.after ph.bound q.shared).view k) := by
  have hrenewed : Renewed (F.logger ph.bound) (p.view ph.bound) q.shared :=
    renewed_of_reachable hrun
  rw [Process.after_view_ne p q.shared hne]
  obtain ⟨⟨hlayout, hnaming, hcounting⟩, hthreads⟩ := h k
  refine ⟨⟨?_, ?_, ?_⟩, fun t => ?_⟩
  · exact ⟨hlayout.headed, hlayout.unclaimed, hlayout.claimed, hlayout.exclusive, hlayout.shows,
      hlayout.placed, hlayout.ordered⟩
  · refine ⟨hnaming.expected, hnaming.defined, fun id hkey => ?_⟩
    -- a key of Logger `k` is not one that the phase stored
    rcases hrenewed.keys id with hold | hnew
    · exact hnaming.announced id (hold.symm.trans hkey)
    · exact absurd (F.announceKeys (hkey.symm.trans hnew)) hne
  · exact ⟨hcounting.follows, hcounting.noted, hcounting.dropped, hcounting.truncated⟩
  · obtain ⟨h, hdid, hidle⟩ := hthreads t
    refine ⟨h, hdid, ⟨hidle.hist, hidle.quiet⟩, fun howner hgeneration hvalid => ?_⟩
    -- nor is a cache of it one that the phase filled
    rcases hrenewed.caches t with hold | hnew
    · have hcache : q.shared.caches t = (p.view k).caches t := hold
      change (q.shared.caches t).owner = _ at howner
      change (q.shared.caches t).generation = _ at hgeneration
      change (q.shared.caches t).writer.valid = true at hvalid
      change ∃ c, LastClaim h c ∧ (q.shared.caches t).writer = _
      rw [hcache] at howner hgeneration hvalid ⊢
      exact hidle.cache howner hgeneration hvalid
    · exact absurd (F.generations (hgeneration.symm.trans hnew.2)) hne

theorem phase_kept (hphases : phases = done ++ ph :: rest) (h : F.Kept phases done p)
    (hrun : Reachable (sem (F.logger ph.bound)) (ph.pool p) q) (hfinished : q.Finished) :
    F.Kept phases (done ++ [ph]) (p.after ph.bound q.shared) := by
  intro k
  by_cases hk : k = ph.bound
  · subst hk
    rw [Process.after_view_self]
    obtain ⟨hinv, hreturned⟩ := bound_kept hphases h hrun
    exact ⟨hinv, hreturned hfinished⟩
  · obtain ⟨hinv, hthreads⟩ := other_kept h hrun hk
    refine ⟨hinv, fun t => ?_⟩
    have hdone : callsTo (done ++ [ph]) k t = callsTo done k t := by
      unfold callsTo
      rw [List.flatMap_append, List.flatMap_singleton, Phase.callsTo_ne ph (Ne.symm hk),
        List.append_nil]
    rw [hdone]
    exact hthreads t

/-- **Through all phases** every Logger keeps its invariant. -/
theorem phases_inv (h : F.Phases done p) (hphases : phases = done ++ rest) :
    F.Kept phases done p := by
  induction h generalizing rest with
  | start => exact start_kept phases
  | bind ph h hrun hfinished ih =>
    rw [List.append_assoc] at hphases
    exact phase_kept hphases (ih hphases) hrun hfinished

end Fleet

/-- **The ledger of each Logger** of a process that bound one after another, in any order and any
number of times: its segment decodes to the calls that were made while it was bound, but for those
that it counts as dropped. -/
theorem rebind_ledger {κ : Type} [DecidableEq κ] [Fintype τ] [DecidableEq τ] {F : Fleet κ τ}
    {phases : List F.Phase} {p : Process κ τ}
    (honly : ∀ ph ∈ phases, ∀ t, ∀ c ∈ ph.calls t, c.emit? ≠ none) (hrun : F.Phases phases p)
    (k : κ)
    (hwrap : (p.segments k).trace.countP Event.isDrop < (F.logger k).counterWrap) :
    ∃ r recs d log, ∃ fate : τ → List Outcome,
      openImage (image (F.logger k).segment (p.segments k).mapped) = .ok r ∧
      decodeAll Decoder.fresh r = .ok (recs, d) ∧
      recs.length + (p.segments k).dropped = ∑ t, (Fleet.callsTo phases k t).length ∧
      d.undecodable = 0 ∧ d.skipped = 0 ∧
      (∀ t, List.Forall₂ (F.logger k).OutcomeOf
        ((Fleet.callsTo phases k t).filterMap Call.emit?) (fate t)) ∧
      (p.segments k).dropped = ∑ t, ((fate t).filterMap droppedOf).length ∧
      List.Forall₂ (DeliversFrom (F.logger k)) log recs ∧
      (∀ t, (log.filter fun x => x.1 = t).map Prod.snd = (fate t).filterMap writtenOf) ∧
      recs.Pairwise fun a b => a.recordOffset < b.recordOffset := by
  obtain ⟨hinv, hreturned⟩ := Fleet.phases_inv hrun (List.append_nil phases).symm k
  refine ledger_of_returned hinv (fun t c hc => ?_) hreturned hwrap
  obtain ⟨ph, hph, hmem⟩ := List.mem_flatMap.mp hc
  by_cases hk : ph.bound = k
  · subst hk
    rw [Fleet.Phase.callsTo_self] at hmem
    exact honly ph hph t c hmem
  · rw [Fleet.Phase.callsTo_ne ph hk] at hmem
    cases hmem

/-! ### Two Loggers -/

/-- Two creations: `true` comes with generation 4, `false` with generation 3. -/
def twinPlatform (b : Bool) : Platform :=
  { stillPlatform with
    generation := if b then 4 else 3
    generation_ne := by cases b <;> decide }

def twinSegment (b : Bool) : Segment × Mem :=
  Segment.initialise (twinPlatform b) (Mem.store (fun _ => 0) 0 (List.replicate 320 0)) 320
    (by decide) cCompactSegmentHeaderBytes 128

theorem twinSegment_created (b : Bool) :
    Segment.createInMemory (twinPlatform b) (smallStorage 1) ⟨0, 128⟩ = .ok (twinSegment b) := by
  unfold Segment.createInMemory
  rw [if_neg (by decide), if_neg (by decide), if_neg (by decide)]
  rfl

/-- Both are created at one address. -/
def twinFleet : Fleet Bool Unit where
  logger := fun b => { smallLogger 1 plainSite with segment := (twinSegment b).1 }
  mem := fun b => (twinSegment b).2
  created := fun b => .memory _ _ _ (twinSegment_created b)
  opens := fun b => by
    obtain ⟨header, hfresh⟩ := Segment.createInMemory_fresh (twinSegment_created b)
    exact ⟨_, openImage_image (Segment.createInMemory_sound (twinSegment_created b))
      hfresh.toHeaded⟩
  generations := fun a b h => by
    cases a <;> cases b
    · rfl
    · exact absurd h (show (3 : UInt64) ≠ 4 by decide)
    · exact absurd h (show (4 : UInt64) ≠ 3 by decide)
    · rfl
  announceKeys := fun a b h => by
    cases a <;> cases b
    · rfl
    · exact absurd h (show (3 : UInt64) ≠ 4 by decide)
    · exact absurd h (show (4 : UInt64) ≠ 3 by decide)
    · rfl

theorem twin_typed (b : Bool) (correlation : UInt64) :
    (twinFleet.logger b).Typed ⟨16, [], correlation⟩ := rfl

/-- One emit to one of them. -/
def twinPhase (b : Bool) (correlation : UInt64) : twinFleet.Phase :=
  ⟨b, fun _ => [.emit ⟨16, [], correlation⟩ (twin_typed b correlation)]⟩

theorem twinPhase_only (b : Bool) (correlation : UInt64) :
    ∀ t, ∀ c ∈ (twinPhase b correlation).calls t, c.emit? ≠ none := by
  intro t c hc
  obtain rfl := List.mem_singleton.mp hc
  exact Option.some_ne_none _

/-- A phase run to its end. -/
def twinAfter (p : Process Bool Unit) (ph : twinFleet.Phase) : Process Bool Unit :=
  p.after ph.bound (runThread (twinFleet.logger ph.bound) () (ph.pool p)).shared

/-- The first Logger, the second, and the first again. -/
def twinPhases : List twinFleet.Phase := [twinPhase false 0, twinPhase true 9, twinPhase false 0]

def twinRun : Process Bool Unit := twinPhases.foldl twinAfter twinFleet.start

theorem twinAfter_phases {phases : List twinFleet.Phase} {p : Process Bool Unit}
    (h : twinFleet.Phases phases p) (ph : twinFleet.Phase) :
    twinFleet.Phases (phases ++ [ph]) (twinAfter p ph) :=
  .bind ph h (runThread_reachable _ () _).reachable fun _ => ⟨(), rfl⟩

theorem twinRun_phases : twinFleet.Phases twinPhases twinRun :=
  twinAfter_phases (twinAfter_phases (twinAfter_phases .start _) _) _

theorem rebind_ledger_twins : ∃ r recs d log, ∃ fate : Unit → List Outcome,
    openImage (image (twinFleet.logger false).segment (twinRun.segments false).mapped) = .ok r ∧
      decodeAll Decoder.fresh r = .ok (recs, d) ∧
      recs.length + (twinRun.segments false).dropped =
        ∑ t, (Fleet.callsTo twinPhases false t).length ∧
      d.undecodable = 0 ∧ d.skipped = 0 ∧
      (∀ t, List.Forall₂ (twinFleet.logger false).OutcomeOf
        ((Fleet.callsTo twinPhases false t).filterMap Call.emit?) (fate t)) ∧
      (twinRun.segments false).dropped = ∑ t, ((fate t).filterMap droppedOf).length ∧
      List.Forall₂ (DeliversFrom (twinFleet.logger false)) log recs ∧
      (∀ t, (log.filter fun x => x.1 = t).map Prod.snd = (fate t).filterMap writtenOf) ∧
      recs.Pairwise fun a b => a.recordOffset < b.recordOffset := by
  refine rebind_ledger (fun ph hph => ?_) twinRun_phases false (by decide +kernel)
  simp only [twinPhases, List.mem_cons, List.not_mem_nil, or_false] at hph
  rcases hph with rfl | rfl | rfl <;> exact twinPhase_only _ _

end Sub0Log.System
