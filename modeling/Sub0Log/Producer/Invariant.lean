import Sub0Log.Producer.Chunk
import Sub0Log.Producer.Program

/-!
# The invariant of the producer

A `Setting` fixes a Logger and the calls each thread makes. `Setting.Inv` is what holds in every reachable state, in three parts:

* `Layout` — the memory: every claimed chunk has one owner and is `Consistent` with what
  that owner published in it, everything behind the claimed chunks is zero;
* `Naming` — the sites: a key is announced, or a Message published, only when the site's
  definition has been;
* `Counting` — the ledger: each thread's outcomes follow its calls, and the two counters
  count the events.

`Env t` is what thread `t` may rely on: nobody else touches its writer cache, its chunks
or its part of the trace, the trace only grows, and what is announced stays announced. `guar_of` reduces what a step owes the
others to the chunk it stores into.
-/

open Bytes Interleaving

namespace Sub0Log.Producer

open Wire

variable {τ : Type}

/-! ### Reading the trace -/

namespace Event

/-- The chunk claimed. -/
def claim? : Event τ → Option Nat
  | claimed _ c => some c
  | _ => none

/-- The chunk published into. -/
def commitChunk? (seg : Segment) : Event τ → Option Nat
  | committed _ a _ => some (seg.chunkOf a)
  | _ => none

/-- The publication, if it is one into chunk `c`. -/
def writtenIn? (seg : Segment) (c : Nat) : Event τ → Option Written
  | committed _ a w => if seg.chunkOf a = c then some w else none
  | _ => none

def isDrop : Event τ → Bool
  | dropped _ _ => true
  | _ => false

def isTruncation : Event τ → Bool
  | truncated _ => true
  | _ => false

end Event

/-- What became of an emit. -/
inductive Outcome
  | written (e : Emission)
  | dropped (e : Emit)

/-- The outcome an event decides, if any. -/
def Event.outcome? : Event τ → Option Outcome
  | committed _ _ (.message e) => some (.written e)
  | dropped _ (some e) => some (.dropped e)
  | _ => none

/-- The chunks claimed in a trace. -/
def claims (h : List (Event τ)) : List Nat := h.filterMap Event.claim?

/-- The chunks published into, in order. -/
def commitChunks (seg : Segment) (h : List (Event τ)) : List Nat :=
  h.filterMap (Event.commitChunk? seg)

/-- The publications into chunk `c`, in order. -/
def writtenIn (seg : Segment) (c : Nat) (h : List (Event τ)) : List Written :=
  h.filterMap (Event.writtenIn? seg c)

def outcomes (h : List (Event τ)) : List Outcome := h.filterMap Event.outcome?

theorem filterMap_concat {α β : Type} (f : α → Option β) (l : List α) (a : α) :
    (l ++ [a]).filterMap f = l.filterMap f ++ (f a).toList := by
  rw [List.filterMap_append]
  cases h : f a <;> simp [h]

/-- `c` is the chunk claimed last. -/
structure LastClaim (h : List (Event τ)) (c : Nat) : Prop where
  mem : c ∈ claims h
  le : ∀ c' ∈ claims h, c' ≤ c

namespace State

variable [DecidableEq τ]

/-- What thread `t` did. -/
def hist (s : State τ) (t : τ) : List (Event τ) := s.trace.filter fun e => e.thread = t

/-- `claimedChunks()`. -/
def claimedChunks (s : State τ) (seg : Segment) : Nat := min s.cursor seg.chunkCount

theorem mem_hist {s : State τ} {t : τ} {e : Event τ} :
    e ∈ s.hist t ↔ e ∈ s.trace ∧ e.thread = t := by
  unfold hist
  rw [List.mem_filter, decide_eq_true_eq]

/-- An event is in the history of the thread that made it. -/
theorem hist_concat {s s' : State τ} {e : Event τ} (h : s'.trace = s.trace ++ [e]) (t : τ) :
    s'.hist t = if e.thread = t then s.hist t ++ [e] else s.hist t := by
  unfold hist
  rw [h, List.filter_append]
  split <;> simp_all

theorem hist_concat_self {s s' : State τ} {e : Event τ} {t : τ}
    (h : s'.trace = s.trace ++ [e]) (ht : e.thread = t) : s'.hist t = s.hist t ++ [e] := by
  rw [hist_concat h, if_pos ht]

theorem hist_concat_other {s s' : State τ} {e : Event τ} {t : τ}
    (h : s'.trace = s.trace ++ [e]) (ht : e.thread ≠ t) : s'.hist t = s.hist t := by
  rw [hist_concat h, if_neg ht]

/-- An event a reading of the trace does not look at. -/
theorem filterMap_hist {β : Type} {f : Event τ → Option β} {s s' : State τ} {e : Event τ}
    (h : s'.trace = s.trace ++ [e]) (hf : f e = none) (t : τ) :
    (s'.hist t).filterMap f = (s.hist t).filterMap f := by
  rw [hist_concat h]
  split
  · rw [filterMap_concat, hf]
    exact List.append_nil _
  · rfl

theorem hist_congr {s s' : State τ} (h : s'.trace = s.trace) (t : τ) : s'.hist t = s.hist t := by
  unfold hist
  rw [h]

end State

/-! ### Settings -/

/-- A Logger, and what the threads do with it. -/
structure Setting (τ : Type) where
  lg : Logger τ
  calls : τ → List (Call lg)
  header : SegmentHeader
  sound : lg.segment.Sound

/-- The outcome of an emit: published as it was called, or dropped. -/
def Logger.OutcomeOf (lg : Logger τ) (e : Emit) : Outcome → Prop
  | .written m =>
    m.siteId = e.site ∧ m.args = e.args ∧ m.correlationId = lg.correlation e.correlation
  | .dropped e' => e' = e

/-- The outcomes are those of the first emits of a list. -/
def Logger.Follows (lg : Logger τ) (emits : List Emit) (os : List Outcome) : Prop :=
  ∃ done, done <+: emits ∧ List.Forall₂ lg.OutcomeOf done os

/-- The definition of the site at `id` has been published. -/
def State.Defined (lg : Logger τ) (s : State τ) (id : UInt64) : Prop :=
  ∃ t a, Event.committed t a (.definition ((lg.sites id).definition id)) ∈ s.trace

theorem State.Defined.mono {lg : Logger τ} {s s' : State τ} {id : UInt64}
    (h : s.Defined lg id) (htrace : s.trace <+: s'.trace) : s'.Defined lg id := by
  obtain ⟨t, a, hmem⟩ := h
  exact ⟨t, a, htrace.subset hmem⟩

namespace Setting

variable (S : Setting τ) [DecidableEq τ]

/-- The emits of a thread. -/
def emits (t : τ) : List Emit := (S.calls t).filterMap Call.emit?

/-- No thread declares subsystems or defines sites of its own. -/
def OnlyEmits : Prop := ∀ t, ∀ c ∈ S.calls t, c.emit? ≠ none

/-- A site that is defined from outside is defined as the Logger's sites have it: there is
one description an id. -/
def OneDefinition : Prop := ∀ t d, Call.defineSite d ∈ S.calls t →
  d = (S.lg.sites d.siteId).definition d.siteId

/-- What may be published. -/
def Expected : Written → Prop
  | .message m => m.args.map Arg.typeCode = (S.lg.sites m.siteId).argTypes
  | .definition d => S.OneDefinition → d = (S.lg.sites d.siteId).definition d.siteId
  | .subsystem _ _ => ¬S.OnlyEmits

/-- Chunk `c` shows what thread `t` published in it. -/
def Shows (s : State τ) (t : τ) (c : Nat) : Prop :=
  Consistent S.lg.segment c (S.lg.threadId t) (writtenIn S.lg.segment c (s.hist t)) s.mem

structure Layout (s : State τ) : Prop where
  headed : S.lg.segment.Headed S.header s.mem
  unclaimed : ∀ x, S.lg.segment.chunkBase (s.claimedChunks S.lg.segment) ≤ x →
    x < S.lg.segment.segmentBytes → s.mem x = 0
  claimed : ∀ c, (∃ t, c ∈ claims (s.hist t)) ↔ c < s.claimedChunks S.lg.segment
  exclusive : ∀ t t' c, c ∈ claims (s.hist t) → c ∈ claims (s.hist t') → t = t'
  shows : ∀ t, ∀ c ∈ claims (s.hist t), S.Shows s t c
  placed : ∀ t, ∀ c ∈ commitChunks S.lg.segment (s.hist t), c ∈ claims (s.hist t)
  ordered : ∀ t, (commitChunks S.lg.segment (s.hist t)).Pairwise (· ≤ ·)

structure Naming (s : State τ) : Prop where
  expected : ∀ t a w, Event.committed t a w ∈ s.trace → S.Expected w
  defined : ∀ t a e, Event.committed t a (.message e) ∈ s.trace → s.Defined S.lg e.siteId
  announced : ∀ id, s.keys id = S.lg.segment.announceKey → s.Defined S.lg id

structure Counting (s : State τ) : Prop where
  follows : ∀ t, S.lg.Follows (S.emits t) (outcomes (s.hist t))
  noted : S.OnlyEmits → ∀ t, Event.dropped t none ∉ s.trace
  dropped : s.dropped = s.trace.countP Event.isDrop % S.lg.counterWrap
  truncated : s.truncated = s.trace.countP Event.isTruncation % S.lg.counterWrap

/-- What holds in every reachable state. -/
structure Inv (s : State τ) : Prop where
  layout : S.Layout s
  naming : S.Naming s
  counting : S.Counting s

/-- What thread `t` relies on. -/
structure Env (t : τ) (s s' : State τ) : Prop where
  hist : s'.hist t = s.hist t
  cache : s'.caches t = s.caches t
  mem : ∀ c ∈ claims (s.hist t), ∀ x, S.lg.segment.InChunk c x → s'.mem x = s.mem x
  trace : s.trace <+: s'.trace
  keys : ∀ id, s.keys id = S.lg.segment.announceKey → s'.keys id = S.lg.segment.announceKey

/-- The proof method's parameters. -/
def spec : Spec τ (State τ) where
  inv := S.Inv
  env := S.Env
  env_refl := fun _ _ => ⟨rfl, rfl, fun _ _ _ _ => rfl, List.prefix_rfl, fun _ => id⟩
  env_trans := by
    intro t s₁ s₂ s₃ h h'
    refine ⟨h'.hist.trans h.hist, h'.cache.trans h.cache, fun c hc x hx => ?_,
      h.trace.trans h'.trace, fun id hkey => h'.keys id (h.keys id hkey)⟩
    rw [h'.mem c (by rwa [h.hist]) x hx, h.mem c hc x hx]

/-- Code of thread `t` between a precondition and a postcondition. -/
abbrev Meets (t : τ) {α : Type} (P : State τ → Prop) (x : Code α)
    (Q : α → State τ → Prop) : Prop :=
  S.spec.Triple (sem S.lg) t P x Q

/-- No other thread can invalidate `P`. -/
abbrev Stable (t : τ) (P : State τ → Prop) : Prop := S.spec.Stable t P

variable {S} {s s' : State τ} {t : τ}

/-! ### Steps and what they owe -/

/-- A step that stores into its thread's own chunks only. -/
theorem guar_of (hinv : S.Layout s) (hcache : ∀ t', t' ≠ t → s'.caches t' = s.caches t')
    (htrace : ∃ events, s'.trace = s.trace ++ events ∧ ∀ e ∈ events, Event.thread e = t)
    (hmem : ∀ x, (∀ c ∈ claims (s.hist t), ¬S.lg.segment.InChunk c x) → s'.mem x = s.mem x)
    (hkeys : ∀ id, s.keys id = S.lg.segment.announceKey →
      s'.keys id = S.lg.segment.announceKey) :
    S.spec.guar t s s' := by
  intro t' hne
  obtain ⟨events, htrace, hown⟩ := htrace
  refine ⟨?_, hcache t' hne, fun c hc x hx => hmem x fun c' hc' hx' => ?_, ?_, hkeys⟩
  · have hnone : events.filter (fun e => e.thread = t') = [] :=
      List.filter_eq_nil_iff.mpr fun e he heq =>
        hne ((of_decide_eq_true heq).symm.trans (hown e he))
    unfold State.hist
    rw [htrace, List.filter_append, hnone, List.append_nil]
  · -- two owners of one chunk are one thread
    have hc₁ := S.sound.chunkOf_eq hx
    have hc₂ := S.sound.chunkOf_eq hx'
    rw [hc₁] at hc₂
    subst hc₂
    exact hne (hinv.exclusive t' t c hc hc')
  · rw [htrace]
    exact List.prefix_append _ _

/-- The layout is about the memory, the cursor and what the histories say of chunks. -/
theorem Layout.congr (h : S.Layout s) (hmem : s'.mem = s.mem) (hcursor : s'.cursor = s.cursor)
    (hclaims : ∀ t, claims (s'.hist t) = claims (s.hist t))
    (hchunks : ∀ t, commitChunks S.lg.segment (s'.hist t) =
      commitChunks S.lg.segment (s.hist t))
    (hwritten : ∀ t c, writtenIn S.lg.segment c (s'.hist t) =
      writtenIn S.lg.segment c (s.hist t)) : S.Layout s' := by
  have hcount : s'.claimedChunks S.lg.segment = s.claimedChunks S.lg.segment := by
    unfold State.claimedChunks
    rw [hcursor]
  constructor
  case headed => rw [hmem]; exact h.headed
  case unclaimed => rw [hmem, hcount]; exact h.unclaimed
  case claimed => intro c; simp only [hclaims, hcount]; exact h.claimed c
  case exclusive => intro t t' c; rw [hclaims, hclaims]; exact h.exclusive t t' c
  case shows =>
    intro t c hc
    rw [hclaims] at hc
    unfold Shows
    rw [hwritten, hmem]
    exact h.shows t c hc
  case placed => intro t c; rw [hclaims, hchunks]; exact h.placed t c
  case ordered => intro t; rw [hchunks]; exact h.ordered t

omit [DecidableEq τ] in
/-- Nothing was published into a chunk that is not among those published into. -/
theorem writtenIn_eq_nil {seg : Segment} {c : Nat} {h : List (Event τ)}
    (hc : c ∉ commitChunks seg h) : writtenIn seg c h = [] := by
  refine List.filterMap_eq_nil_iff.mpr fun e he => ?_
  cases e with
  | committed t a w =>
    refine if_neg fun heq => hc ?_
    exact List.mem_filterMap.mpr ⟨_, he, congrArg some heq⟩
  | claimed | dropped | truncated => rfl

/-- Nothing but a writer cache changed. -/
theorem Inv.of_caches (h : S.Inv s) (caches : τ → WriterCache) :
    S.Inv { s with caches := caches } :=
  ⟨h.layout.congr rfl rfl (fun _ => rfl) (fun _ => rfl) (fun _ _ => rfl),
    ⟨h.naming.expected, h.naming.defined, h.naming.announced⟩,
    ⟨h.counting.follows, h.counting.noted, h.counting.dropped, h.counting.truncated⟩⟩

/-- A site is announced after its definition. -/
theorem Inv.of_key (h : S.Inv s) {id key : UInt64} (hdefined : s.Defined S.lg id) :
    S.Inv { s with keys := Function.update s.keys id key } := by
  refine ⟨h.layout.congr rfl rfl (fun _ => rfl) (fun _ => rfl) (fun _ _ => rfl),
    ⟨h.naming.expected, h.naming.defined, fun id' hkey => ?_⟩,
    ⟨h.counting.follows, h.counting.noted, h.counting.dropped, h.counting.truncated⟩⟩
  by_cases heq : id' = id
  · subst heq
    exact hdefined
  · change Function.update s.keys id key id' = _ at hkey
    rw [Function.update_of_ne heq] at hkey
    exact h.naming.announced id' hkey

omit [DecidableEq τ] in
/-- Where chunk `c` lies, nothing else does. -/
private theorem not_inChunk_of {c c' x : Nat} (hne : c' ≠ c)
    (hx : S.lg.segment.InChunk c' x) : ¬S.lg.segment.InChunk c x := fun hx' =>
  hne ((S.sound.chunkOf_eq hx).symm.trans (S.sound.chunkOf_eq hx'))

/-- The parts of the layout a store into the thread's own chunk cannot reach. -/
private theorem store_elsewhere (h : S.Layout s) {c : Nat} (hc : c ∈ claims (s.hist t))
    {mem : Mem} (hout : ∀ x, ¬S.lg.segment.InChunk c x → mem x = s.mem x) :
    S.lg.segment.Headed S.header mem ∧
      (∀ x, S.lg.segment.chunkBase (s.claimedChunks S.lg.segment) ≤ x →
        x < S.lg.segment.segmentBytes → mem x = 0) ∧
      ∀ c', c' ≠ c → ∀ x, S.lg.segment.InChunk c' x → mem x = s.mem x := by
  have hlt : c < s.claimedChunks S.lg.segment := (h.claimed c).mp ⟨t, hc⟩
  have hcursor := S.sound.cursor_inside
  refine ⟨h.headed.congr fun x hx => hout x fun hin => ?_, fun x h₁ h₂ => ?_,
    fun c' hne x hx => hout x (not_inChunk_of hne hx)⟩
  · have hle : S.lg.segment.headerBytes ≤ S.lg.segment.chunkBase c := Nat.le_add_right _ _
    unfold cCompactSegmentHeaderBytes cNextChunkOffset at hcursor
    unfold sizeofSegmentHeader at hx
    have := hin.1
    omega
  · have hafter := S.lg.segment.chunkBase_add_le hlt
    rw [hout x fun hin => ?_]
    · exact h.unclaimed x h₁ h₂
    · have := hin.2
      omega

/-- A store into a chunk of the storing thread that leaves it consistent. -/
theorem Inv.of_store (h : S.Inv s) {c : Nat} (hc : c ∈ claims (s.hist t)) {mem : Mem}
    (hout : ∀ x, ¬S.lg.segment.InChunk c x → mem x = s.mem x)
    (hshows : S.Shows { s with mem := mem } t c) : S.Inv { s with mem := mem } := by
  obtain ⟨hheaded, hunclaimed, hother⟩ := store_elsewhere h.layout hc hout
  refine ⟨⟨hheaded, hunclaimed, h.layout.claimed, h.layout.exclusive, fun t' c' hc' => ?_,
    h.layout.placed, h.layout.ordered⟩, ⟨h.naming.expected, h.naming.defined,
      h.naming.announced⟩, ⟨h.counting.follows, h.counting.noted, h.counting.dropped, h.counting.truncated⟩⟩
  by_cases heq : c' = c
  · subst heq
    obtain rfl : t' = t := h.layout.exclusive t' t c' hc' hc
    exact hshows
  · exact (h.layout.shows t' c' hc').congr S.sound (hother c' heq)

omit [DecidableEq τ] in
/-- The naming part after one more event. -/
private theorem naming_concat (h : S.Naming s) {e : Event τ} (htrace : s'.trace = s.trace ++ [e])
    (hkeys : s'.keys = s.keys)
    (hexpected : ∀ a w, e = .committed e.thread a w → S.Expected w)
    (hdefined : ∀ a m, e = .committed e.thread a (.message m) → s.Defined S.lg m.siteId) :
    S.Naming s' := by
  have hprefix : s.trace <+: s'.trace := by
    rw [htrace]
    exact List.prefix_append _ _
  constructor
  case expected =>
    intro t a w hmem
    rw [htrace, List.mem_append, List.mem_singleton] at hmem
    rcases hmem with hold | rfl
    · exact h.expected t a w hold
    · exact hexpected a w rfl
  case defined =>
    intro t a m hmem
    rw [htrace, List.mem_append, List.mem_singleton] at hmem
    rcases hmem with hold | rfl
    · exact (h.defined t a m hold).mono hprefix
    · exact (hdefined a m rfl).mono hprefix
  case announced =>
    intro id hkey
    rw [hkeys] at hkey
    exact (h.announced id hkey).mono hprefix

/-- The counting part after one more event. -/
private theorem counting_concat (h : S.Counting s) {e : Event τ}
    (htrace : s'.trace = s.trace ++ [e])
    (hfollows : e.outcome? ≠ none →
      S.lg.Follows (S.emits e.thread) (outcomes (s.hist e.thread ++ [e])))
    (hnoted : S.OnlyEmits → ∀ t, e ≠ .dropped t none)
    (hdropped : s'.dropped =
      if e.isDrop then (s.dropped + 1) % S.lg.counterWrap else s.dropped)
    (htruncated : s'.truncated =
      if e.isTruncation then (s.truncated + 1) % S.lg.counterWrap else s.truncated) :
    S.Counting s' := by
  constructor
  case follows =>
    intro t
    rw [State.hist_concat htrace]
    split
    · rename_i heq
      subst heq
      by_cases hnone : e.outcome? = none
      · have hold := h.follows e.thread
        unfold outcomes at hold ⊢
        rw [filterMap_concat, hnone]
        simpa using hold
      · exact hfollows hnone
    · exact h.follows t
  case noted =>
    intro honly t hmem
    rw [htrace, List.mem_append, List.mem_singleton] at hmem
    rcases hmem with hold | hnew
    · exact h.noted honly t hold
    · exact hnoted honly t hnew.symm
  case dropped =>
    rw [htrace, List.countP_append, hdropped, h.dropped]
    cases hdrop : e.isDrop <;> simp [hdrop]
  case truncated =>
    rw [htrace, List.countP_append, htruncated, h.truncated]
    cases htrunc : e.isTruncation <;> simp [htrunc]

/-- **A publication**: the store that makes records visible, and its event. -/
theorem Inv.of_commit (h : S.Inv s) {c a : Nat} {w : Written} {mem : Mem}
    (hlast : LastClaim (s.hist t) c) (ha : S.lg.segment.InChunk c a)
    (hout : ∀ x, ¬S.lg.segment.InChunk c x → mem x = s.mem x)
    (hshows : Consistent S.lg.segment c (S.lg.threadId t)
      (writtenIn S.lg.segment c (s.hist t) ++ [w]) mem)
    (hexpected : S.Expected w)
    (hdefined : ∀ m, w = .message m → s.Defined S.lg m.siteId)
    (hfollows : ∀ m, w = .message m →
      S.lg.Follows (S.emits t) (outcomes (s.hist t) ++ [.written m])) :
    S.Inv { s with mem := mem, trace := s.trace ++ [.committed t a w] } := by
  obtain ⟨hheaded, hunclaimed, hother⟩ := store_elsewhere h.layout hlast.mem hout
  have hchunk : S.lg.segment.chunkOf a = c := S.sound.chunkOf_eq ha
  have hhist : ∀ t', State.hist { s with mem := mem, trace := s.trace ++ [.committed t a w] } t' =
      if (Event.committed t a w).thread = t' then s.hist t' ++ [.committed t a w]
      else s.hist t' := State.hist_concat rfl
  have hclaims : ∀ t', claims (State.hist
      { s with mem := mem, trace := s.trace ++ [.committed t a w] } t') =
      claims (s.hist t') := State.filterMap_hist rfl rfl
  refine ⟨⟨hheaded, hunclaimed, ?_, ?_, ?_, ?_, ?_⟩, naming_concat h.naming rfl rfl ?_ ?_,
    counting_concat h.counting rfl ?_ (fun _ _ heq => by cases heq) rfl rfl⟩
  · intro c'
    simp only [hclaims]
    exact h.layout.claimed c'
  · intro t₁ t₂ c'
    rw [hclaims, hclaims]
    exact h.layout.exclusive t₁ t₂ c'
  · intro t' c' hc'
    rw [hclaims] at hc'
    unfold Shows
    by_cases heq : c' = c
    · have hthread : t' = t := h.layout.exclusive t' t c' hc' (heq ▸ hlast.mem)
      rw [heq, hthread, hhist, if_pos (show (Event.committed t a w).thread = t from rfl)]
      unfold writtenIn at hshows ⊢
      rw [filterMap_concat]
      simpa [Event.writtenIn?, hchunk] using hshows
    · -- another chunk: its memory and its publications are what they were
      have hwritten : writtenIn S.lg.segment c' (State.hist
          { s with mem := mem, trace := s.trace ++ [.committed t a w] } t') =
          writtenIn S.lg.segment c' (s.hist t') :=
        State.filterMap_hist rfl (if_neg fun hc => heq (hc.symm.trans hchunk)) t'
      rw [hwritten]
      exact (h.layout.shows t' c' hc').congr S.sound (hother c' heq)
  · intro t' c' hc'
    rw [hclaims]
    rw [hhist] at hc'
    split at hc'
    · rename_i heq
      obtain rfl : t = t' := heq
      unfold commitChunks at hc'
      rw [filterMap_concat] at hc'
      rcases List.mem_append.mp hc' with hold | hnew
      · exact h.layout.placed t c' hold
      · obtain rfl : c' = c := by simpa [Event.commitChunk?, hchunk] using hnew
        exact hlast.mem
    · exact h.layout.placed t' c' hc'
  · intro t'
    rw [hhist]
    split
    · rename_i heq
      obtain rfl : t = t' := heq
      unfold commitChunks
      rw [filterMap_concat]
      refine List.pairwise_append.mpr ⟨h.layout.ordered t, by simp [Event.commitChunk?],
        fun c₁ hc₁ c₂ hc₂ => ?_⟩
      obtain rfl : c₂ = c := by simpa [Event.commitChunk?, hchunk] using hc₂
      exact hlast.le c₁ (h.layout.placed t c₁ hc₁)
    · exact h.layout.ordered t'
  · intro a' w' heq
    injection heq with _ _ hw
    exact hw ▸ hexpected
  · intro a' m heq
    injection heq with _ _ hw
    exact hdefined m hw
  · intro hnone
    cases w with
    | message m =>
      have hf := hfollows m rfl
      unfold outcomes at hf ⊢
      rw [filterMap_concat]
      exact hf
    | definition d => exact absurd rfl hnone
    | subsystem id name => exact absurd rfl hnone

/-- **A claim**: the chunk behind the claimed ones is the thread's. -/
theorem Inv.of_claim (h : S.Inv s) (hroom : s.cursor < S.lg.segment.chunkCount) (t : τ) :
    S.Inv { s with
      cursor := s.cursor + 1
      trace := s.trace ++ [.claimed t s.cursor] } := by
  have hcount : s.claimedChunks S.lg.segment = s.cursor := Nat.min_eq_left (Nat.le_of_lt hroom)
  have hcount' : min (s.cursor + 1) S.lg.segment.chunkCount = s.cursor + 1 :=
    Nat.min_eq_left hroom
  have hlt := h.layout.claimed
  rw [hcount] at hlt
  have hhist : ∀ t', State.hist
      { s with cursor := s.cursor + 1, trace := s.trace ++ [.claimed t s.cursor] } t' =
      if (Event.claimed t s.cursor).thread = t' then s.hist t' ++ [.claimed t s.cursor]
      else s.hist t' := State.hist_concat rfl
  have hclaims : ∀ t' c, c ∈ claims (State.hist
      { s with cursor := s.cursor + 1, trace := s.trace ++ [.claimed t s.cursor] } t') ↔
      c ∈ claims (s.hist t') ∨ (t = t' ∧ c = s.cursor) := by
    intro t' c
    rw [hhist]
    split
    · rename_i heq
      obtain rfl : t = t' := heq
      unfold claims
      rw [filterMap_concat, List.mem_append]
      simp [Event.claim?]
    · rename_i hne
      change ¬t = t' at hne
      simp [hne]
  have hwritten : ∀ t' c, writtenIn S.lg.segment c (State.hist
      { s with cursor := s.cursor + 1, trace := s.trace ++ [.claimed t s.cursor] } t') =
      writtenIn S.lg.segment c (s.hist t') := fun t' _ => State.filterMap_hist rfl rfl t'
  have hchunks : ∀ t', commitChunks S.lg.segment (State.hist
      { s with cursor := s.cursor + 1, trace := s.trace ++ [.claimed t s.cursor] } t') =
      commitChunks S.lg.segment (s.hist t') := State.filterMap_hist rfl rfl
  -- the new chunk is claimed by nobody, holds zeros and nothing was published in it
  have hzero : ∀ x, S.lg.segment.InChunk s.cursor x → s.mem x = 0 := by
    intro x hx
    have hinside := S.sound.chunk_inside hroom
    refine h.layout.unclaimed x ?_ (lt_of_lt_of_le hx.2 hinside)
    rw [hcount]
    exact hx.1
  have hnew : ∀ t', s.cursor ∉ claims (s.hist t') := fun t' hc =>
    Nat.lt_irrefl _ ((hlt s.cursor).mp ⟨t', hc⟩)
  refine ⟨⟨h.layout.headed, fun x h₁ h₂ => ?_, fun c => ?_, fun t₁ t₂ c h₁ h₂ => ?_,
    fun t' c hc => ?_, fun t' c hc => ?_, fun t' => ?_⟩, naming_concat h.naming rfl rfl
      (fun a w heq => by cases heq) (fun a w heq => by cases heq),
    counting_concat h.counting rfl (fun hnone => absurd rfl hnone)
      (fun _ _ heq => by cases heq) rfl rfl⟩
  · refine h.layout.unclaimed x (le_trans ?_ h₁) h₂
    unfold State.claimedChunks at hcount ⊢
    rw [hcount, hcount']
    exact le_trans (Nat.le_add_right _ _) (S.lg.segment.chunkBase_add_le (Nat.lt_succ_self _))
  · simp only [hclaims]
    unfold State.claimedChunks
    rw [hcount', Nat.lt_succ_iff_lt_or_eq, ← hlt c]
    constructor
    · rintro ⟨t', hold | ⟨-, hc⟩⟩
      · exact Or.inl ⟨t', hold⟩
      · exact Or.inr hc
    · rintro (⟨t', hold⟩ | hc)
      · exact ⟨t', Or.inl hold⟩
      · exact ⟨t, Or.inr ⟨rfl, hc⟩⟩
  · rw [hclaims] at h₁ h₂
    rcases h₁ with h₁ | ⟨rfl, rfl⟩ <;> rcases h₂ with h₂ | ⟨h₂, hc⟩
    · exact h.layout.exclusive t₁ t₂ c h₁ h₂
    · exact absurd (hc ▸ h₁) (hnew t₁)
    · exact absurd h₂ (hnew t₂)
    · exact h₂
  · unfold Shows
    rw [hwritten]
    rcases (hclaims t' c).mp hc with hold | ⟨rfl, rfl⟩
    · exact h.layout.shows t' c hold
    · rw [writtenIn_eq_nil fun hc => hnew t (h.layout.placed t _ hc)]
      have hbody := S.sound.bodyBase_add s.cursor
      have hgt := S.sound.chunkBytes_gt
      have hhead : S.lg.segment.bodyBase s.cursor =
        S.lg.segment.chunkBase s.cursor + sizeofChunkHeader := rfl
      exact @consistent_nil _ _ _ _ S.sound 0
        (fun i hi => Or.inl (hzero _ ⟨Nat.le_add_right _ _, by omega⟩))
        fun x h₁ h₂ => hzero x ⟨by omega, h₂⟩
  · rw [hclaims]
    rw [hchunks] at hc
    exact Or.inl (h.layout.placed t' c hc)
  · rw [hchunks]
    exact h.layout.ordered t'

/-- A claim that is refused only moves the cursor on. -/
theorem Inv.of_refused (h : S.Inv s) (hfull : S.lg.segment.chunkCount ≤ s.cursor) :
    S.Inv { s with cursor := s.cursor + 1 } := by
  have hcount : s.claimedChunks S.lg.segment = S.lg.segment.chunkCount := Nat.min_eq_right hfull
  have hcount' : State.claimedChunks { s with cursor := s.cursor + 1 } S.lg.segment =
      s.claimedChunks S.lg.segment := by
    rw [hcount]
    exact Nat.min_eq_right (Nat.le_succ_of_le hfull)
  refine ⟨⟨h.layout.headed, ?_, ?_, h.layout.exclusive, h.layout.shows, h.layout.placed,
    h.layout.ordered⟩, ⟨h.naming.expected, h.naming.defined, h.naming.announced⟩,
    ⟨h.counting.follows, h.counting.noted, h.counting.dropped, h.counting.truncated⟩⟩
  · rw [hcount']
    exact h.layout.unclaimed
  · rw [hcount']
    exact h.layout.claimed

/-- An event that is neither a claim nor a publication. -/
theorem Inv.of_count (h : S.Inv s) {e : Event τ} (htrace : s'.trace = s.trace ++ [e])
    (hmem : s'.mem = s.mem) (hcursor : s'.cursor = s.cursor) (hkeys : s'.keys = s.keys)
    (hclaim : e.claim? = none) (hcommit : ∀ t a w, e ≠ .committed t a w)
    (hfollows : e.outcome? ≠ none →
      S.lg.Follows (S.emits e.thread) (outcomes (s.hist e.thread ++ [e])))
    (hnoted : S.OnlyEmits → ∀ t, e ≠ .dropped t none)
    (hdropped : s'.dropped =
      if e.isDrop then (s.dropped + 1) % S.lg.counterWrap else s.dropped)
    (htruncated : s'.truncated =
      if e.isTruncation then (s.truncated + 1) % S.lg.counterWrap else s.truncated) :
    S.Inv s' := by
  have hchunk : e.commitChunk? S.lg.segment = none := by
    cases e with
    | committed t a w => exact absurd rfl (hcommit t a w)
    | claimed | dropped | truncated => rfl
  have hwritten : ∀ c, e.writtenIn? S.lg.segment c = none := by
    intro c
    cases e with
    | committed t a w => exact absurd rfl (hcommit t a w)
    | claimed | dropped | truncated => rfl
  refine ⟨h.layout.congr hmem hcursor (State.filterMap_hist htrace hclaim)
      (State.filterMap_hist htrace hchunk) fun t c => State.filterMap_hist htrace (hwritten c) t,
    naming_concat h.naming htrace hkeys (fun a w heq => absurd heq (hcommit _ a w))
      (fun a m heq => absurd heq (hcommit _ a _)),
    counting_concat h.counting htrace hfollows hnoted hdropped htruncated⟩

end Setting

end Sub0Log.Producer
