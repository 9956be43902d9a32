import Sub0Log.Reader.InPlace
import Sub0Log.System.Glimpse

/-!
# A live segment, read where it is

The reader of a live segment need not copy it: it opens and visits the very memory the threads
write (`LiveRead`), and every load it makes is of moments of its own. By `Reads.exists_image` it
returns what the visit of some memory that stands still returns, and that memory is a `Glimpse` of
the run (`glimpse_in_place`): the tag of a head word is loaded before its other half, so a record
that is not published yet ends the walk of its chunk, and one that is published does not change
any more.

* **`live_read`** — what a reader in place returns.
-/

open Bytes Checked Interleaving InPlace

namespace Sub0Log.System

open Wire Reader Producer

variable {τ : Type} [DecidableEq τ]

/-- A reader in place, beside the threads of a Logger. -/
abbrev LiveRead (lg : Logger τ) : Looking (Checked (Except SegmentError Visit)) →
    Pool Op.Answer τ (State τ) Unit → Checked (Except SegmentError Visit) →
    Pool Op.Answer τ (State τ) Unit → Prop :=
  Reads (Interleaving.Step (sem lg)) fun p => p.shared.mapped

/-- The loads of a reader in place. -/
abbrev LiveLoads (lg : Logger τ) : Mem → Nat → List Load →
    Pool Op.Answer τ (State τ) Unit → Pool Op.Answer τ (State τ) Unit → Prop :=
  Timed (Interleaving.Step (sem lg)) fun p => p.shared.mapped

variable {lg : Logger τ} {L : Launch lg} {calls : τ → List (Call lg)}
  {p q s e : Pool Op.Answer τ (State τ) Unit} {m : Mem}

/-! ### The walk of a chunk that grows -/

section Walks

variable {t : τ} {c : Nat}

/-- A byte loaded after its publication is the one published. -/
theorem published_between (hs : Reachable (sem lg) (L.pool calls) s)
    (heq : Reachable (sem lg) e q) (hc : c ∈ claims (q.shared.hist t)) {x : Nat} {b : UInt8}
    (h₁ : lg.segment.bodyBase c ≤ x) (h₂ : x < lg.segment.frontier c (publishedIn lg c t s))
    (h : Between (Interleaving.Step (sem lg)) (fun p => p.shared.mapped) s e x b) :
    b = s.shared.mapped x := by
  obtain ⟨k, hsk, hke, rfl⟩ := h
  exact published_stays hs hsk (Relation.ReflTransGen.trans hke heq) hc h₁ h₂

/-- A memory that has what was published in state `s`, and nothing behind it, is legible. -/
theorem legible_of_published (hs : Reachable (sem lg) (L.pool calls) s)
    (hsq : Reachable (sem lg) s q) (hc : c ∈ claims (q.shared.hist t))
    (hm : ∀ x, lg.segment.bodyBase c ≤ x →
      x < lg.segment.frontier c (publishedIn lg c t s) → m x = s.shared.mapped x)
    (hstop : sizes (lg.segment.entries (publishedIn lg c t s)) + 8 ≤ lg.segment.capacity →
      RecordHead.isCommitted (m.word (lg.segment.frontier c (publishedIn lg c t s)) 8) = false) :
    Legible lg.segment c (publishedIn lg c t s) m := by
  have hconsistent := consistent_before hs hsq hc
  refine ⟨hconsistent.fits, ?_, hconsistent.wf, hstop⟩
  rw [← hconsistent.content]
  exact Mem.slice_congr fun x h₁ h₂ => hm x h₁ h₂

/-- **The walk of a chunk** that is being written finds what was published at some moment of the
walk. The walk is at `cursor`, behind the records `front`; everything below `a` is loaded. -/
theorem legible_in_place (hs : Reachable (sem lg) (L.pool calls) s)
    (heq : Reachable (sem lg) e q) (hc : c ∈ claims (q.shared.hist t)) {a cursor : Nat}
    {front : List Entry} {post : List Load}
    (hfront : front <+: lg.segment.entries (publishedIn lg c t s))
    (hcursor : cursor = lg.segment.bodyBase c + sizes front) (hle : a ≤ cursor)
    (hloaded : ∀ x, lg.segment.bodyBase c ≤ x → x < a → m x = s.shared.mapped x)
    (htimed : LiveLoads lg m a
      (bodyLoads m (lg.segment.bodyBase c + lg.segment.capacity) cursor ++ post) s e) :
    ∃ k, Reachable (sem lg) s k ∧ Reachable (sem lg) k e ∧
      Legible lg.segment c (publishedIn lg c t k) m := by
  induction hn : lg.segment.bodyBase c + lg.segment.capacity - cursor using Nat.strong_induction_on
    generalizing s a cursor front with
  | _ n ih =>
  subst hn
  have hse := htimed.runs
  have hfits := (consistent_before hs (Relation.ReflTransGen.trans hse heq) hc).fits
  have hsize := sizes_grow hfront
  have hreach : cursor ≤ lg.segment.frontier c (publishedIn lg c t s) := by
    rw [hcursor]
    exact Nat.add_le_add_left hsize _
  -- what was published is loaded as it is, now or later
  have hbelow : ∀ x, lg.segment.bodyBase c ≤ x →
      x < lg.segment.frontier c (publishedIn lg c t s) → m x = s.shared.mapped x := by
    intro x h₁ h₂
    by_cases hlt : x < a
    · exact hloaded x h₁ hlt
    · exact published_between hs heq hc h₁ h₂ (htimed.between (Nat.le_of_not_lt hlt))
  rw [bodyLoads] at htimed
  by_cases hshort : lg.segment.bodyBase c + lg.segment.capacity < cursor + 8
  · -- the body is full
    refine ⟨s, Relation.ReflTransGen.refl, hse, legible_of_published hs (hse.trans heq) hc hbelow
      fun hroom => ?_⟩
    omega
  rw [if_neg (by omega), if_neg hshort] at htimed
  obtain ⟨high, low, hsh, hhl, hgap, hhigh, hlow, hrest⟩ := htimed
  have hlow_e := hrest.runs
  have hhigh_q : Reachable (sem lg) high q := (hhl.trans hlow_e).trans heq
  have hs_high := Relation.ReflTransGen.trans hs hsh
  have hconsistent := consistent_before hs_high hhigh_q hc
  have hfits' : sizes (lg.segment.entries (publishedIn lg c t high)) ≤ lg.segment.capacity :=
    hconsistent.fits
  have hfrontier : lg.segment.frontier c (publishedIn lg c t high) = lg.segment.bodyBase c +
      sizes (lg.segment.entries (publishedIn lg c t high)) := rfl
  have hpublished : ∀ x, lg.segment.bodyBase c ≤ x →
      x < lg.segment.frontier c (publishedIn lg c t high) → m x = high.shared.mapped x := by
    intro x h₁ h₂
    by_cases hx : x < cursor
    · rw [hbelow x h₁ (lt_of_lt_of_le hx hreach)]
      exact (published_stays hs hsh hhigh_q hc h₁ (lt_of_lt_of_le hx hreach)).symm
    by_cases hx' : x < cursor + 8
    · by_cases hhalf : x < cursor + 4
      · rw [hlow x (Nat.le_of_not_lt hx) hhalf]
        exact published_stays hs_high hhl (hlow_e.trans heq) hc h₁ h₂
      · exact hhigh x (Nat.le_of_not_lt hhalf) hx'
    · exact published_between hs_high heq hc h₁ h₂
        ((hrest.between (Nat.le_of_not_lt hx')).mono hhl Relation.ReflTransGen.refl)
  by_cases hend : lg.segment.frontier c (publishedIn lg c t high) = cursor
  · -- no record was published here when the tag was loaded
    refine ⟨high, hsh, hhl.trans hlow_e, legible_of_published hs_high hhigh_q hc hpublished
      fun hroom => ?_⟩
    obtain ⟨h₆, h₇⟩ := hconsistent.stop hroom
    change high.shared.mapped (lg.segment.frontier c (publishedIn lg c t high) + 6) = 0 at h₆
    change high.shared.mapped (lg.segment.frontier c (publishedIn lg c t high) + 7) = 0 at h₇
    rw [hend] at h₆ h₇ ⊢
    refine not_isCommitted_of_tag ?_ ?_
    · rw [hhigh _ (by omega) (by omega)]
      exact h₆
    · rw [hhigh _ (by omega) (by omega)]
      exact h₇
  · -- there was one, and all of it is loaded as it was published
    have hgrown : lg.segment.entries (publishedIn lg c t s) <+:
        lg.segment.entries (publishedIn lg c t high) := entries_grow _ (publishedIn_grows hsh)
    obtain ⟨rest, hentries⟩ := hfront.trans hgrown
    cases rest with
    | nil =>
      rw [List.append_nil] at hentries
      rw [hfrontier, ← hentries] at hend
      exact absurd hcursor.symm hend
    | cons entry rest =>
      have hcontent : m.slice (lg.segment.bodyBase c) (sizes (front ++ entry :: rest)) =
          encode (front ++ entry :: rest) := by
        rw [hentries, ← hconsistent.content]
        exact Mem.slice_congr fun x h₁ h₂ => hpublished x h₁ h₂
      have hwf : ∀ e ∈ front ++ entry :: rest, e.Wf := by
        rw [hentries]
        exact hconsistent.wf
      have hplace : (cursor, entry) ∈ place (lg.segment.bodyBase c) (front ++ entry :: rest) := by
        rw [place_append, ← hcursor]
        exact List.mem_append_right _ List.mem_cons_self
      have hword : m.word cursor 8 = entry.head.pack :=
        word_of_place (p := (cursor, entry)) hcontent hplace
      have hpayload : payloadAt m cursor = entry.payload.length :=
        payloadAt_of_place (p := (cursor, entry)) hcontent hwf hplace
      have hcommitted : ¬RecordHead.isCommitted (m.word cursor 8) = false := by
        rw [hword, RecordHead.isCommitted_pack]
        exact Bool.noConfusion
      have htotal : sizes (front ++ entry :: rest) =
          sizes (lg.segment.entries (publishedIn lg c t high)) := congrArg sizes hentries
      rw [sizes_append, sizes_cons] at htotal
      have hentry : entry.size = 8 + paddedPayload entry.payload.length := rfl
      have hpad := le_paddedPayload entry.payload.length
      rw [if_neg hcommitted, hpayload, if_neg (by omega)] at hrest
      obtain ⟨s', hls', -, hrest'⟩ := hrest
      have hhigh_s' : Reachable (sem lg) high s' := hhl.trans hls'
      have hs'_q : Reachable (sem lg) s' q := Relation.ReflTransGen.trans hrest'.runs heq
      have hloaded' : ∀ x, lg.segment.bodyBase c ≤ x → x < cursor + 8 + entry.payload.length →
          m x = s'.shared.mapped x := fun x h₁ h₂ => by
        rw [hpublished x h₁ (by omega)]
        exact (published_stays hs_high hhigh_s' hs'_q hc h₁ (by omega)).symm
      have hfront' : front ++ [entry] <+: lg.segment.entries (publishedIn lg c t s') := by
        refine List.IsPrefix.trans ⟨rest, ?_⟩ (entries_grow _ (publishedIn_grows hhigh_s'))
        rw [List.append_assoc]
        exact hentries
      have hcursor' : cursor + 8 + paddedPayload entry.payload.length =
          lg.segment.bodyBase c + sizes (front ++ [entry]) := by
        rw [sizes_append, sizes_cons, sizes_nil]
        omega
      obtain ⟨k, hs'k, hke, hlegible⟩ := ih _ (by omega) (hs_high.trans hhigh_s') hfront' hcursor'
        (by omega) hloaded' hrest' rfl
      exact ⟨k, (hsh.trans hhigh_s').trans hs'k, hke, hlegible⟩

end Walks

/-! ### The image a reader in place sees -/

section Images

/-- What a reader in place has of the segment. -/
def seen (lg : Logger τ) (m : Mem) (q : Pool Op.Answer τ (State τ) Unit) :
    Copying.Reading (Pool Op.Answer τ (State τ) Unit) :=
  ⟨q, m.slice 0 lg.segment.segmentBytes⟩

omit [DecidableEq τ] in
theorem seen_mem (m : Mem) {x : Nat} (h : x < lg.segment.segmentBytes) :
    Mem.ofList (seen lg m q).copied x = m x :=
  image_mem m h

/-- The body of a claimed chunk whose header passes is loaded as it was at one moment. -/
theorem legible_slot (hp : Reachable (sem lg) (L.pool calls) p)
    (hfrom : FromMoments lg p q m) {t : τ} {c : Nat} (hc : c ∈ claims (q.shared.hist t))
    (hcount : c < lg.segment.chunkCount)
    (hpasses : Passes lg.segment (Geometry.headerAt m (lg.segment.chunkBase c)))
    {a : Nat} {post : List Load} (hps : Reachable (sem lg) p s)
    (htimed : LiveLoads lg m a ((geometry L.sound).slotLoads m lg.segment.segmentBytes
      (lg.segment.chunkBase c) ++ post) s q) :
    ∃ k, Reachable (sem lg) p k ∧ Reachable (sem lg) k q ∧
      Legible lg.segment c (publishedIn lg c t k) m := by
  have hinside := L.sound.chunk_inside hcount
  have hbody := L.sound.bodyBase_add c
  have hclass := class_of_moments hp hfrom hc hcount
  have hjudge := judge_passes L.sound (by rw [headerAt_class]; exact hclass) hpasses
  have hend : (geometry L.sound).bodyEnd lg.segment.segmentBytes (lg.segment.chunkBase c)
      lg.segment.chunkBytes = lg.segment.bodyBase c + lg.segment.capacity := by
    unfold Geometry.bodyEnd geometry
    simp only
    omega
  unfold Geometry.slotLoads at htimed
  rw [slot_chunk L.sound m hcount, hjudge] at htimed
  simp only [hend] at htimed
  obtain ⟨s', hss', -, hrest⟩ := htimed
  have hps' := Relation.ReflTransGen.trans hps hss'
  have hbegin : lg.segment.bodyBase c = lg.segment.bodyBase c + sizes [] := rfl
  obtain ⟨k, hs'k, hkq, hlegible⟩ := legible_in_place (hp.trans hps') Relation.ReflTransGen.refl
    hc List.nil_prefix hbegin (Nat.le_refl _) (fun x h₁ h₂ => absurd h₂ (Nat.not_lt_of_le h₁)) hrest
  exact ⟨k, hps'.trans hs'k, hkq, hlegible⟩

/-- **What a reader in place sees** is a glimpse, and it returns what the visit of it returns. -/
theorem glimpse_in_place (hp : Reachable (sem lg) (L.pool calls) p)
    {result : Checked (Except SegmentError Visit)}
    (hread : LiveRead lg (readInPlace lg.segment.segmentBytes).run p result q) :
    ∃ m, Glimpse lg p (seen lg m q) ∧ ∀ r v,
      openImage (image lg.segment (Mem.ofList (seen lg m q).copied)) = .ok r → visit r = .ok v →
      result = .ok (.ok v) := by
  obtain ⟨m, hlook, htimed⟩ := hread.exists_image (readInPlace_goes _)
  have hpq : Reachable (sem lg) p q := htimed.runs
  have hlayout := (Launch.reachable (hp.trans hpq)).1.layout
  have hfrom : FromMoments lg p q m := fun x _ => htimed.between (Nat.zero_le x)
  have hmem : ∀ x, x < lg.segment.segmentBytes → Mem.ofList (seen lg m q).copied x = m x :=
    fun x hx => seen_mem m hx
  have hfrom' : FromMoments lg p q (Mem.ofList (seen lg m q).copied) := fun x hx => by
    rw [hmem x hx]
    exact hfrom x hx
  have hheaded := headed_of_moments hp hfrom'
  have hopen := openImage_image L.sound hheaded
  have hshows : Shows m (image lg.segment (Mem.ofList (seen lg m q).copied)) := by
    intro x hx
    rw [image_size] at hx
    rw [image_mem _ hx]
    exact hmem x hx
  obtain ⟨steps, -, hvisit⟩ := (reader L.sound hheaded).visit_eq_walk
  have hresult := look_readInPlace hshows
  have hloads := loads_readInPlace hshows hopen hvisit
  rw [hopen, image_size] at hresult
  rw [image_size, reader_geometry] at hloads
  have hall := hloads.trans
    (congrArg (List.cons _) (walkLoads_uniform (uniform_of_moments hp hpq hfrom)))
  rw [hall] at htimed
  refine ⟨m, ⟨hpq, Mem.slice_length _ _ _, hfrom', fun t c hc hpasses => ?_⟩, fun r v hr hv => ?_⟩
  · have hcount : c < lg.segment.chunkCount :=
      lt_of_lt_of_le ((hlayout.claimed c).mp ⟨t, hc⟩) (claimedChunks_le _ _)
    have hchunk : ∀ x, lg.segment.InChunk c x → Mem.ofList (seen lg m q).copied x = m x :=
      fun x hx => hmem x (lt_of_lt_of_le hx.2 (L.sound.chunk_inside hcount))
    have hgt := L.sound.chunkBytes_gt
    have hheader : copiedHeader lg.segment (seen lg m q).copied c =
        Geometry.headerAt m (lg.segment.chunkBase c) := by
      unfold copiedHeader Geometry.headerAt
      rw [Mem.slice_congr fun x h₁ h₂ => hchunk x ⟨h₁, by omega⟩]
    rw [hheader] at hpasses
    -- what is loaded before this slot and after it
    obtain ⟨pre, post, hsplit⟩ :=
      List.append_of_mem (List.mem_range.mpr (lt_slotCount L.sound hcount))
    rw [hsplit, List.flatMap_append, List.flatMap_cons, ← List.cons_append] at htimed
    obtain ⟨a, s, hps, hrest⟩ := htimed.later
    obtain ⟨k, hpk, hkq, hlegible⟩ := legible_slot hp hfrom hc hcount hpasses hps hrest
    exact ⟨k, hpk, hkq, hlegible.congr L.sound hchunk⟩
  · obtain rfl := Except.ok.inj (hopen.symm.trans hr)
    rw [← hlook, hresult]
    simp only [hv, ok_bind]

end Images

/-- The second of two emits is under way. -/
def secondEmit : Pool Op.Answer Unit (State Unit) Unit :=
  runOps (smallLogger 3 plainSite) () 120 ((smallLaunch three_chunks plainSite).pool twoEmits)

/-- It ends when the reader has loaded the first record. -/
def secondEmitted : Pool Op.Answer Unit (State Unit) Unit :=
  runThread (smallLogger 3 plainSite) () secondEmit

/-- What the reader returns then. -/
def secondRead : Checked (Except SegmentError Visit) :=
  lookThen secondEmit.shared.mapped secondEmitted.shared.mapped 4
    (readInPlace (smallLogger 3 plainSite).segment.segmentBytes).run

end Sub0Log.System
