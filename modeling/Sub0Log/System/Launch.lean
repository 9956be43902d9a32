import Sub0Log.Producer.Calls
import Sub0Log.System.Creation

/-!
# Runs of the producer

A `Launch` is a segment as `create` or `createInMemory` leaves it, one that a reader opens,
with a Logger bound to it and nothing logged yet. Every thread is given its calls, and the
pool runs from there in any interleaving.

`Launch.reachable` is what the rest of the system rests on: the invariant holds in every
pool such a run reaches, and `Launch.finished` adds what each thread has done when all have
returned.
-/

open Bytes Interleaving

namespace Sub0Log.System

open Wire Reader Producer

variable {τ : Type}

/-- The segment was created and has this memory. -/
inductive Creates (seg : Segment) (m : Mem) : Prop
  | file (p : Platform) (options : SegmentOptions) (h : Segment.create p options = .ok (seg, m))
  | memory (p : Platform) (storage : Storage) (options : SegmentOptions)
      (h : Segment.createInMemory p storage options = .ok (seg, m))

namespace Creates

variable {seg : Segment} {m : Mem}

theorem fresh (h : Creates seg m) : ∃ header, seg.Fresh header m := by
  cases h with
  | file p options h => exact Segment.create_fresh h
  | memory p storage options h => exact Segment.createInMemory_fresh h

/-- The header a reader opens is the one that was stamped. -/
theorem opened (h : Creates seg m) {r : SegmentReader} (hopen : openImage (image seg m) = .ok r) :
    seg.Headed r.header m ∧ seg.headerBytes ≤ seg.segmentBytes := by
  obtain ⟨header, hfresh⟩ := h.fresh
  obtain ⟨himage, hsize, hheader, -⟩ := openImage_eq_ok hopen
  rw [image_size] at hsize
  have hread : r.header = header := by
    rw [hheader, image_slice m (by omega), hfresh.header_bytes, SegmentHeader.ofBytes_toBytes]
  have hfits := r.sane.segmentBytes_ge
  rw [hread, hfresh.headerBytes, hfresh.segmentBytes] at hfits
  exact ⟨hread ▸ hfresh.toHeaded, hfits⟩

/-- A created segment that a reader opens is sound. -/
theorem sound (h : Creates seg m) {r : SegmentReader} (hopen : openImage (image seg m) = .ok r) :
    seg.Sound := by
  obtain ⟨-, hfits⟩ := h.opened hopen
  cases h with
  | file p options h =>
    refine Segment.create_sound h ?_
    obtain ⟨-, hsize, heq⟩ := Segment.create_eq_ok h
    rw [(Prod.mk.inj heq).1] at hfits
    exact hfits
  | memory p storage options h => exact Segment.createInMemory_sound h

end Creates

/-- Nothing was logged yet: the memory is the created one, no site is announced, no thread
has a writer of this Logger. -/
structure Untouched (lg : Logger τ) (m : Mem) (s : State τ) : Prop where
  mem : s.mem = m
  cursor : s.cursor = 0
  keys : ∀ id, s.keys id ≠ lg.segment.announceKey
  caches : ∀ t, (s.caches t).owner = lg.address →
    (s.caches t).generation ≠ lg.segment.generation
  dropped : s.dropped = 0
  truncated : s.truncated = 0
  trace : s.trace = []

/-- A Logger bound to a created segment that readers open. -/
structure Launch (lg : Logger τ) where
  mem : Mem
  created : Creates lg.segment mem
  opens : ∃ r, openImage (image lg.segment mem) = .ok r
  start : State τ
  untouched : Untouched lg mem start

namespace Launch

variable {lg : Logger τ} (L : Launch lg) (calls : τ → List (Call lg))

/-- The header in front of the segment. -/
def header : SegmentHeader := SegmentHeader.ofBytes (L.mem.slice 0 sizeofSegmentHeader)

theorem sound (L : Launch lg) : lg.segment.Sound := by
  obtain ⟨r, hopen⟩ := L.opens
  exact L.created.sound hopen

theorem fresh : lg.segment.Fresh L.header L.mem := by
  obtain ⟨header, hfresh⟩ := L.created.fresh
  have hheader : L.header = header := by
    unfold Launch.header
    rw [hfresh.header_bytes, SegmentHeader.ofBytes_toBytes]
  exact hheader ▸ hfresh

/-- The setting of the run. -/
def setting : Setting τ := ⟨lg, calls, L.header, L.sound⟩

/-- Where the run starts. -/
def pool : Pool Op.Answer τ (State τ) Unit := ⟨L.start, fun t => lg.thread (calls t)⟩

variable [DecidableEq τ]

@[simp] theorem start_hist (t : τ) : L.start.hist t = [] := by
  unfold State.hist
  rw [L.untouched.trace]
  rfl

/-- The invariant holds before anything is logged. -/
theorem start_inv : (L.setting calls).Inv L.start := by
  have hcount : L.start.claimedChunks lg.segment = 0 := by
    unfold State.claimedChunks
    rw [L.untouched.cursor]
    exact Nat.zero_min _
  refine ⟨⟨?headed, ?unclaimed, ?claimed, ?exclusive, ?shows, ?placed, ?ordered⟩,
    ⟨?expected, ?defined, ?announced⟩, ⟨?follows, ?noted, ?dropped, ?truncated⟩⟩
  case headed =>
    rw [L.untouched.mem]
    exact L.fresh.toHeaded
  case unclaimed =>
    intro x h₁ h₂
    have hcursor := L.sound.cursor_inside
    have hbase : lg.segment.chunkBase 0 = lg.segment.headerBytes := by
      unfold Segment.chunkBase
      rw [Nat.zero_mul, Nat.add_zero]
    change lg.segment.chunkBase (L.start.claimedChunks lg.segment) ≤ x at h₁
    rw [hcount, hbase] at h₁
    rw [L.untouched.mem]
    exact L.fresh.zero x (le_trans (le_trans (by decide) hcursor) h₁) h₂
  case claimed =>
    intro c
    change _ ↔ c < L.start.claimedChunks lg.segment
    rw [hcount]
    simp [claims]
  case exclusive => intro t t' c hc; simp [claims] at hc
  case shows => intro t c hc; simp [claims] at hc
  case placed => intro t c hc; simp [commitChunks] at hc
  case ordered => intro t; simp [commitChunks]
  case expected => intro t a w hmem; rw [L.untouched.trace] at hmem; cases hmem
  case defined => intro t a e hmem; rw [L.untouched.trace] at hmem; cases hmem
  case announced => exact fun id hkey => absurd hkey (L.untouched.keys id)
  case follows => intro t; exact ⟨[], List.nil_prefix, by simp [outcomes]⟩
  case noted => intro _ t hmem; rw [L.untouched.trace] at hmem; cases hmem
  case dropped => rw [L.untouched.dropped, L.untouched.trace]; exact (Nat.zero_mod _).symm
  case truncated => rw [L.untouched.truncated, L.untouched.trace]; exact (Nat.zero_mod _).symm

theorem start_idle (t : τ) : (L.setting calls).Idle t [] L.start := by
  refine ⟨⟨L.start_hist t, fun c hc => by cases hc⟩, fun howner hgeneration _ => ?_⟩
  exact absurd hgeneration (L.untouched.caches t howner)

/-- What a thread establishes when it has returned. -/
def Returned (t : τ) (s : State τ) : Prop :=
  ∃ h, (L.setting calls).Did t h (calls t) ∧ (L.setting calls).Idle t h s

theorem returned_stable (t : τ) : (L.setting calls).Stable t (L.Returned calls t) := by
  rintro s s' henv ⟨h, hdid, hidle⟩
  exact ⟨h, hdid, Setting.idle_stable s s' henv hidle⟩

theorem thread_returns (t : τ) :
    (L.setting calls).Meets t ((L.setting calls).Idle t []) (lg.thread (calls t))
      fun _ => L.Returned calls t := by
  have hdid : (L.setting calls).Did t [] [] := List.Forall₂.nil
  exact Setting.thread_meets rfl hdid

variable {L calls} {p : Pool Op.Answer τ (State τ) Unit}

/-- **Every pool a run reaches** satisfies the invariant, and every thread will do what is
left of its calls. -/
theorem reachable (h : Reachable (sem lg) (L.pool calls) p) :
    (L.setting calls).Inv p.shared ∧
      ∀ t, (L.setting calls).spec.wp (sem lg) t (p.prog t) (fun _ => L.Returned calls t)
        p.shared :=
  Spec.reachable (S := (L.setting calls).spec) (p := L.pool calls) (fun t _ => L.returned_stable calls t)
    (L.start_inv calls) (L.start_idle calls) (L.thread_returns calls) h

/-- When all threads have returned, each has done its calls. -/
theorem finished (h : Reachable (sem lg) (L.pool calls) p) (hfinished : p.Finished) :
    (L.setting calls).Inv p.shared ∧ ∀ t, L.Returned calls t p.shared := by
  obtain ⟨hinv, hwp⟩ := reachable h
  refine ⟨hinv, fun t => ?_⟩
  obtain ⟨a, ha⟩ := hfinished t
  have ht := hwp t
  rw [ha] at ht
  exact ht

end Launch

/-! ### Runs end -/

section Answers

variable [DecidableEq τ]

/-- One answer each operation may give: the clock stands still, bytes are copied in order. -/
def answer (lg : Logger τ) (t : τ) : (op : Op) → State τ → op.Answer × State τ
  | .loadKey site, s => (s.keys site, s)
  | .storeKey site key, s => ((), { s with keys := Function.update s.keys site key })
  | .claimChunkIndex, s => claimChunkIndex lg t s
  | .currentThreadId, s => (lg.threadId t, s)
  | .monotonicNow, s => ((0 : UInt64), s)
  | .loadCache, s => (s.caches t, s)
  | .storeCache cache, s => ((), { s with caches := Function.update s.caches t cache })
  | .copyOrder n, s => (List.range n, s)
  | .storeByte address byte, s => ((), { s with mem := s.mem.store address [byte] })
  | .store64 address word publishes, s =>
    ((), { s with
      mem := s.mem.store address (leBytes 8 word)
      trace := s.trace ++ publication t address publishes })
  | .storeLow32 address half, s => ((), { s with mem := s.mem.store address (leBytes 4 half) })
  | .storeHigh32 address half publishes, s =>
    ((), { s with
      mem := s.mem.store (address + 4) (leBytes 4 half)
      trace := s.trace ++ publication t address publishes })
  | .countDrop emit, s =>
    ((), { s with
      dropped := (s.dropped + 1) % lg.counterWrap
      trace := s.trace ++ [.dropped t emit] })
  | .countTruncation, s =>
    ((), { s with
      truncated := (s.truncated + 1) % lg.counterWrap
      trace := s.trace ++ [.truncated t] })

theorem sem_answer (lg : Logger τ) (t : τ) (op : Op) (s : State τ) :
    sem lg t op s (answer lg t op s).1 (answer lg t op s).2 := by
  cases op with
  | loadKey | currentThreadId | loadCache => exact ⟨rfl, rfl⟩
  | copyOrder => exact ⟨List.Perm.refl _, rfl⟩
  | _ => rfl

/-- What is left of a thread's code is done, in one of the ways it may be. -/
def runThread (lg : Logger τ) (t : τ) (p : Pool Op.Answer τ (State τ) Unit) :
    Pool Op.Answer τ (State τ) Unit :=
  ⟨((p.prog t).exec (answer lg t) p.shared).2, Function.update p.prog t (.ret ())⟩

theorem runThread_reachable (lg : Logger τ) (t : τ) (p : Pool Op.Answer τ (State τ) Unit) :
    ReachableBy (sem lg) t p (runThread lg t p) := exec_reachable (sem_answer lg t) p

/-- At most `n` operations of a thread are done, each in one of the ways it may be. -/
def runOps (lg : Logger τ) (t : τ) (n : Nat) (p : Pool Op.Answer τ (State τ) Unit) :
    Pool Op.Answer τ (State τ) Unit :=
  ⟨((p.prog t).execN (answer lg t) n p.shared).2,
    Function.update p.prog t ((p.prog t).execN (answer lg t) n p.shared).1⟩

theorem runOps_reachable (lg : Logger τ) (t : τ) (n : Nat) (p : Pool Op.Answer τ (State τ) Unit) :
    ReachableBy (sem lg) t p (runOps lg t n p) := execN_reachable (sem_answer lg t) n p

end Answers

/-! ### A small launch -/

/-- Numbers of chunks such as `2` are of this type. -/
instance instNeZeroEight : NeZero 8 := ⟨by decide⟩

theorem one_chunk : 0 < (1 : Fin 8).val := by decide
theorem two_chunks : 0 < (2 : Fin 8).val := by decide
theorem three_chunks : 0 < (3 : Fin 8).val := by decide
theorem five_chunks : 0 < (5 : Fin 8).val := by decide

/-- Storage for the header area and `chunks` chunks of 128 bytes. -/
def smallStorage (chunks : Fin 8) : Storage where
  address := 8
  size := 192 + chunks * 128
  size_le := by omega
  contents := fun _ => 0

/-- The segment in it, and its memory. -/
def smallSegment (chunks : Fin 8) : Segment × Mem :=
  Segment.initialise stillPlatform (Mem.store (fun _ => 0) 0 (List.replicate (192 + chunks * 128) 0))
    (192 + chunks * 128) (by omega) cCompactSegmentHeaderBytes 128

theorem smallSegment_created {chunks : Fin 8} (h : 0 < chunks.val) :
    Segment.createInMemory stillPlatform (smallStorage chunks) ⟨0, 128⟩ =
      .ok (smallSegment chunks) := by
  have hroom : ¬(smallStorage chunks).size <
      cCompactSegmentHeaderBytes + (128 : UInt32).toNat := by
    show ¬192 + chunks.val * 128 < 192 + 128
    omega
  have haligned : ¬((smallStorage chunks).address = 0 ∨
      (smallStorage chunks).address % cRecordAlign ≠ 0) := by
    show ¬((8 : Nat) = 0 ∨ 8 % 8 ≠ 0)
    decide
  unfold Segment.createInMemory
  rw [if_neg (by decide), if_neg haligned, if_neg hroom]
  rfl

/-- One thread, and one site at every address. -/
def smallLogger (chunks : Fin 8) (site : SiteDescriptor) : Logger Unit where
  address := 8
  segment := (smallSegment chunks).1
  split := false
  rootCorrelation := 0
  sites := fun _ => site
  threadId := fun _ => 5

/-- Nothing logged yet. -/
def smallLaunch {chunks : Fin 8} (h : 0 < chunks.val) (site : SiteDescriptor) :
    Launch (smallLogger chunks site) where
  mem := (smallSegment chunks).2
  created := .memory _ _ _ (smallSegment_created h)
  opens := by
    obtain ⟨header, hfresh⟩ := Segment.createInMemory_fresh (smallSegment_created h)
    exact ⟨_, openImage_image (Segment.createInMemory_sound (smallSegment_created h))
      hfresh.toHeaded⟩
  start := ⟨(smallSegment chunks).2, 0, fun _ => 0, fun _ => ⟨0, 0, ChunkWriter.none⟩, 0, 0, []⟩
  untouched := ⟨rfl, rfl, fun _ => show (0 : UInt64) ≠ 3 by decide,
    fun _ howner => absurd howner (show (0 : Nat) ≠ 8 by decide), rfl, rfl, rfl⟩

/-- A site without arguments. -/
def plainSite : SiteDescriptor where
  format := [104, 105]
  file := []
  line := 1
  subsystem := 0
  severity := 2
  argTypes := []
  argTypes_le := by decide
  payload_lt := by decide

/-- An emit of it, at address 16. -/
def plainEmit (chunks : Fin 8) (correlation : UInt64) : Call (smallLogger chunks plainSite) :=
  .emit ⟨16, [], correlation⟩ rfl

end Sub0Log.System
