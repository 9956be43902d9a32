import Sub0Log.Cat.Follow
import Sub0Log.System.Glimpse

/-!
# Following processes that log

`sub0log-cat --follow` beside any number of processes (`Process`), each with a Logger of its own
that is bound to a segment, while their threads run (`World`). A scan opens files: some are
copies of the segment of a process, taken while it runs (`Finds`), under whatever paths; the
others are missing, cut, no segments, or segments of somebody else. The directories may change
from scan to scan in any way.

What a scan decodes is what its files decode to (`mem_decodes`), a file of a process decodes to
Messages of its log, and to all that were in it when the scan began (`Glimpse.decode`), and of
equal records the first is printed (`run_delivers`).

* **`follow_live`** — every wanted Message that is met is printed, once, and nothing else.
-/

open Bytes Checked FirstSeen Interleaving Copying

namespace Sub0Log.Cat

open Wire Reader Producer Sub0Log.System

/-! ### What a scan decodes -/

section Scans

variable {o : Options} {s : Scan} {l l' : Load} {found : Found}

/-- `x` is what the found file decodes to. -/
structure LoadedFrom (found : Found) (x : Loaded) : Prop where
  file : ∃ size bytes h, found = .file size bytes h ∧ bytes.length = size ∧
    ∃ image r, image.bytes = bytes ∧ openImage image = .ok r ∧ x.header = r.header ∧
      decodeAll Decoder.fresh r = .ok (x.records, x.decoder)

/-- A file decodes to one thing. -/
theorem LoadedFrom.unique {x y : Loaded} (hx : LoadedFrom found x) (hy : LoadedFrom found y) :
    x = y := by
  obtain ⟨size, bytes, h, rfl, -, image, r, hbytes, hopen, hheader, hdecode⟩ := hx.file
  obtain ⟨size', bytes', h', heq, -, image', r', hbytes', hopen', hheader', hdecode'⟩ := hy.file
  obtain ⟨rfl, rfl⟩ := Found.file.inj heq
  obtain rfl : image = image' := by
    cases image
    cases image'
    congr
    exact hbytes.trans hbytes'.symm
  obtain rfl := Except.ok.inj (hopen.symm.trans hopen')
  obtain ⟨hrecords, hdecoder⟩ := Prod.mk.inj (Except.ok.inj (hdecode.symm.trans hdecode'))
  cases x
  cases y
  congr
  exact hheader.trans hheader'.symm

/-- One file: what it decodes to is added, if it is a segment. -/
theorem loadFile_segments (h : loadFile found l = .ok (l', none)) :
    (l'.merger.segments = l.merger.segments ∧ ∀ x, ¬LoadedFrom found x) ∨
      ∃ x, LoadedFrom found x ∧ l'.merger.segments = l.merger.segments ++ [x] := by
  unfold loadFile at h
  cases found with
  | missing =>
    obtain ⟨rfl, -⟩ := Prod.mk.inj (Except.ok.inj h)
    refine Or.inl ⟨rfl, fun x hx => ?_⟩
    obtain ⟨size, bytes, h, heq, -⟩ := hx.file
    cases heq
  | file size bytes hle =>
    by_cases hsize : l.remainingBytes < size ∨ cSizeMax < size ∨ cStreamMax < size
    · simp only [dif_pos hsize] at h
      cases (Prod.mk.inj (Except.ok.inj h)).2
    have hremaining : size ≤ l.remainingBytes := by omega
    simp only [dif_neg hsize, sub64_eq hremaining, ok_bind] at h
    by_cases hcut : bytes.length < size
    · simp only [if_pos hcut] at h
      obtain ⟨rfl, -⟩ := Prod.mk.inj (Except.ok.inj h)
      refine Or.inl ⟨rfl, fun x hx => ?_⟩
      obtain ⟨size', bytes', h', heq, hwhole, -⟩ := hx.file
      obtain ⟨rfl, rfl⟩ := Found.file.inj heq
      exact absurd hwhole (Nat.ne_of_lt hcut)
    · have hwhole : bytes.length = size := Nat.le_antisymm hle (Nat.le_of_not_lt hcut)
      simp only [if_neg hcut] at h
      unfold Merger.addSegment at h
      cases hopen : openImage ⟨bytes, by unfold cStreamMax at hsize; omega⟩ with
      | error e =>
        simp only [hopen] at h
        obtain ⟨rfl, -⟩ := Prod.mk.inj (Except.ok.inj h)
        refine Or.inl ⟨rfl, fun x hx => ?_⟩
        obtain ⟨size', bytes', h', heq, -, image, r, hbytes, hopened, -⟩ := hx.file
        obtain ⟨rfl, rfl⟩ := Found.file.inj heq
        cases image
        subst hbytes
        cases hopened.symm.trans hopen
      | ok r =>
        obtain ⟨v, d, p, hvisit, -, hdecode, -⟩ := decodeAll_run r
        simp only [hopen, hdecode, hvisit, ok_bind] at h
        obtain ⟨rfl, -⟩ := Prod.mk.inj (Except.ok.inj h)
        refine Or.inr ⟨_, ⟨size, bytes, hle, rfl, hwhole, _, r, rfl, hopen, rfl, hdecode⟩, rfl⟩

/-- All files of a scan. -/
theorem loadFiles_segments {i : Nat} {paths : List Path}
    (h : loadFiles s i paths l = .ok (l', none)) :
    ∃ more, l'.merger.segments = l.merger.segments ++ more ∧
      ∀ x, x ∈ more ↔ ∃ k path, paths[k]? = some path ∧ LoadedFrom (s.found (i + k) path) x := by
  induction paths generalizing i l with
  | nil =>
    obtain ⟨rfl, -⟩ := Prod.mk.inj (Except.ok.inj h)
    refine ⟨[], (List.append_nil _).symm, fun x => ⟨fun hx => absurd hx List.not_mem_nil, ?_⟩⟩
    rintro ⟨k, path, hpath, -⟩
    cases hpath
  | cons path paths ih =>
    obtain ⟨l₁, stop, hfile, -⟩ := loadFile_reads (s.found i path) l
    unfold loadFiles at h
    simp only [hfile, ok_bind] at h
    cases stop with
    | some stop => cases (Prod.mk.inj (Except.ok.inj h)).2
    | none =>
      obtain ⟨more, hmore, hmem⟩ := ih h
      -- the first path, and the others
      have hcons : ∀ x, (∃ k path', (path :: paths)[k]? = some path' ∧
          LoadedFrom (s.found (i + k) path') x) ↔ LoadedFrom (s.found i path) x ∨ x ∈ more := by
        intro x
        rw [hmem]
        constructor
        · rintro ⟨_ | k, path', hpath, hx⟩
          · obtain rfl := Option.some.inj hpath
            exact Or.inl hx
          · rw [← Nat.add_assoc, Nat.add_right_comm] at hx
            exact Or.inr ⟨k, path', hpath, hx⟩
        · rintro (hx | ⟨k, path', hpath, hx⟩)
          · exact ⟨0, path, rfl, hx⟩
          · refine ⟨k + 1, path', hpath, ?_⟩
            rw [← Nat.add_assoc, Nat.add_right_comm]
            exact hx
      rcases loadFile_segments hfile with ⟨hsame, hnone⟩ | ⟨y, hy, hadded⟩
      · refine ⟨more, by rw [hmore, hsame], fun x => ?_⟩
        rw [hcons]
        exact ⟨Or.inr, fun hx => hx.resolve_left (hnone x)⟩
      · refine ⟨y :: more, by rw [hmore, hadded, List.append_assoc, List.singleton_append],
          fun x => ?_⟩
        rw [hcons, List.mem_cons]
        refine or_congr_left ⟨fun hx => hx ▸ hy, fun hx => hx.unique hy⟩

/-- **What a scan decodes** is what the files it opens decode to. -/
theorem mem_decodes {batch : List MergedRecord} (h : Decodes o s batch) :
    ∃ paths, collectSegments o s.inputs = .ok paths ∧
      ∀ entry, entry ∈ batch ↔ ∃ k path x, paths[k]? = some path ∧
        LoadedFrom (s.found k path) x ∧ entry ∈ x.entries := by
  obtain ⟨l, hload, rfl⟩ := h
  unfold load at hload
  cases hpaths : collectSegments o s.inputs with
  | error stop =>
    rw [hpaths] at hload
    cases (Prod.mk.inj (Except.ok.inj hload)).2
  | ok paths =>
    rw [hpaths] at hload
    obtain ⟨more, hmore, hmem⟩ := loadFiles_segments hload
    refine ⟨paths, rfl, fun entry => ?_⟩
    change l.merger.segments = more at hmore
    unfold Merger.merged
    rw [List.mem_mergeSort, hmore, List.mem_flatMap]
    constructor
    · rintro ⟨x, hx, hentry⟩
      obtain ⟨k, path, hpath, hfrom⟩ := (hmem x).mp hx
      rw [Nat.zero_add] at hfrom
      exact ⟨k, path, x, hpath, hfrom, hentry⟩
    · rintro ⟨k, path, x, hpath, hfrom, hentry⟩
      refine ⟨x, (hmem x).mpr ⟨k, path, hpath, ?_⟩, hentry⟩
      rw [Nat.zero_add]
      exact hfrom

end Scans

/-! ### Processes -/

/-- A process that logs: its Logger, bound to a segment, and what its threads do. -/
structure Process where
  Thread : Type
  [decEq : DecidableEq Thread]
  lg : Logger Thread
  launch : Launch lg
  calls : Thread → List (Call lg)
  one : (launch.setting calls).OneDefinition

attribute [instance] Process.decEq

namespace Process

/-- A moment of the process. -/
abbrev Moment (P : Process) : Type := Pool Op.Answer P.Thread (State P.Thread) Unit

/-- The process id and the generation its segment is stamped with. -/
def identity (P : Process) : UInt64 × UInt64 :=
  (P.launch.header.processId, P.lg.segment.generation)

/-- The moments of a run of the process. -/
abbrev Running (P : Process) (p : P.Moment) : Prop :=
  Reachable (sem P.lg) (P.launch.pool P.calls) p

/-- `entry` is the Message `e` of the process, which was published as `x`. -/
structure Tells (P : Process) (x : Shown) (e : Emission) (entry : MergedRecord) : Prop where
  message : x.written = .message e
  key : keyOf entry = (P.identity.1, P.identity.2, x.address)
  delivers : Delivers P.lg e entry.record

variable {P : Process} {p q : P.Moment}

/-- What was published stays in the log. -/
theorem log_grows (hp : P.Running p) (hpq : Reachable (sem P.lg) p q) {x : P.Thread × Shown}
    (hx : x ∈ log P.lg p.shared) : x ∈ log P.lg q.shared := by
  obtain ⟨hclaim, hmem⟩ :=
    (mem_log (t := x.1) (p := x.2) (Launch.reachable hp).1.layout).mp hx
  refine (mem_log (t := x.1) (p := x.2) (Launch.reachable (hp.trans hpq)).1.layout).mpr
    ⟨claims_grow (trace_of_reachable hpq) hclaim, ?_⟩
  exact shownIn_of_growth (publishedIn_grows hpq) hmem

/-- Publications at one address are one. -/
theorem log_address (hp : P.Running p) {x y : P.Thread × Shown} (hx : x ∈ log P.lg p.shared)
    (hy : y ∈ log P.lg p.shared) (h : x.2.address = y.2.address) : x = y := by
  have hpairwise := log_pairwise (Launch.reachable hp).1.layout
  have hnodup : ((log P.lg p.shared).map fun x => x.2.address).Nodup :=
    List.pairwise_map.mpr (hpairwise.imp fun hlt => Nat.ne_of_lt hlt)
  exact List.inj_on_of_nodup_map hnodup hx hy h

/-- **A copy of the segment**, begun at `p`: what it decodes to are Messages of the log, and among
them all that were in it then. -/
theorem loaded_of_copy (hp : P.Running p) {bytes : List UInt8}
    (hcopy : LiveCopy P.lg ⟨p, []⟩ ⟨q, bytes⟩) (hwhole : bytes.length = P.lg.segment.segmentBytes) :
    ∃ x, LoadedFrom (.file bytes.length bytes (Nat.le_refl _)) x ∧
      (∀ entry ∈ x.entries, ∃ t y e, (t, y) ∈ log P.lg q.shared ∧ P.Tells y e entry) ∧
      ∀ t y e, (t, y) ∈ log P.lg p.shared → y.written = .message e →
        ∃ entry ∈ x.entries, P.Tells y e entry := by
  obtain ⟨r, v, ps, recs, d, hopen, h⟩ :=
    (glimpse_of_copy hp hcopy hwhole).decode P.one hp
  have hbytes : (image P.lg.segment (Mem.ofList bytes)).bytes = bytes := copy_bytes hwhole
  have htells : ∀ y ∈ ps, ∀ rec ∈ recs, y.Returns P.lg rec → ∀ e, y.written = .message e →
      ∀ o, P.Tells { y with owner := o } e
        ⟨rec, r.header.processId, alignedNs r.header rec⟩ := by
    rintro y - rec hrec ⟨e', he', hdelivers, -, hoffset⟩ e he o
    obtain rfl : e' = e := Written.message.inj (he'.symm.trans he)
    refine ⟨he, ?_, hdelivers⟩
    unfold keyOf identity
    rw [h.header, h.generation rec hrec, hoffset]
  refine ⟨⟨d, recs, r.header⟩,
    ⟨⟨_, bytes, Nat.le_refl _, rfl, rfl, _, r, hbytes, hopen, rfl, h.decodes⟩⟩, ?_, ?_⟩
  · intro entry hentry
    obtain ⟨rec, hrec, rfl⟩ := List.mem_map.mp hentry
    obtain ⟨y, hy, hreturns⟩ := mem_of_forall₂ h.returns hrec
    have hmem := (List.mem_filter.mp hy).1
    obtain ⟨t, ht⟩ := h.published y hmem
    obtain ⟨e, he⟩ : ∃ e, y.written = .message e := hreturns.imp fun _ h => h.1
    exact ⟨t, _, e, ht, htells y hmem rec hrec hreturns e he _⟩
  · intro t y e hy he
    have htold := h.told (t, y) hy (by rw [he]; rfl)
    obtain ⟨rec, hrec, hreturns⟩ := mem_of_forall₂ h.returns.flip htold
    refine ⟨_, List.mem_map_of_mem hrec, ?_⟩
    exact htells y (h.early _ hy) rec hrec hreturns e he y.owner

end Process

/-! ### Scans beside running processes -/

/-- The process id and the generation an entry names. -/
def identityOf (entry : MergedRecord) : UInt64 × UInt64 :=
  (entry.processId, entry.record.segmentGeneration)

/-- A file names in each of its records what is in its header. -/
theorem LoadedFrom.identity {size : Nat} {bytes : List UInt8} {h : bytes.length ≤ size}
    {x : Loaded} (hx : LoadedFrom (.file size bytes h) x) :
    bytes.length = size ∧ ∃ image r, image.bytes = bytes ∧ openImage image = .ok r ∧
      ∀ entry ∈ x.entries, identityOf entry = (r.header.processId, r.header.generation) := by
  obtain ⟨size', bytes', h', heq, hwhole, image, r, hbytes, hopen, hheader, hdecode⟩ := hx.file
  obtain ⟨rfl, rfl⟩ := Found.file.inj heq
  refine ⟨hwhole, image, r, hbytes, hopen, fun entry hentry => ?_⟩
  obtain ⟨rec, hrec, rfl⟩ := List.mem_map.mp hentry
  unfold identityOf
  rw [hheader, decodeAll_generation hdecode rec hrec]

section Fleet

variable {ι : Type} (fleet : ι → Process)

/-- A moment of all the processes. -/
abbrev World : Type := ∀ i, (fleet i).Moment

/-- What a file that is opened while the processes go from `w` to `w'` can be: a copy of the
segment of a process, or something that bears the identity of none. -/
inductive Finds (w w' : World fleet) : Option ι → Found → Prop
  | missing : Finds w w' none .missing
  | other {size : Nat} {bytes : List UInt8} {h : bytes.length ≤ size}
      (hother : bytes.length = size → ∀ image r, image.bytes = bytes → openImage image = .ok r →
        ∀ i, (r.header.processId, r.header.generation) ≠ (fleet i).identity) :
      Finds w w' none (.file size bytes h)
  | copy (i : ι) {bytes : List UInt8} (hcopy : LiveCopy (fleet i).lg ⟨w i, []⟩ ⟨w' i, bytes⟩)
      (hwhole : bytes.length = (fleet i).lg.segment.segmentBytes) :
      Finds w w' (some i) (.file bytes.length bytes (Nat.le_refl _))

/-- Scan `s` opens a file that is a copy of the segment of process `i`. -/
def Meets (w w' : World fleet) (s : Scan) (o : Options) (i : ι) : Prop :=
  ∃ paths k path, collectSegments o s.inputs = .ok paths ∧ paths[k]? = some path ∧
    Finds fleet w w' (some i) (s.found k path)

variable {fleet} {w w' : World fleet} {o : Options} {s : Scan} {batch : List MergedRecord}

/-- An entry that bears the identity of a process is a Message of its log. -/
theorem tells_of_identity (hdistinct : ∀ i j, (fleet i).identity = (fleet j).identity → i = j)
    (hw : ∀ i, (fleet i).Running (w i)) (hfinds : ∀ k path, ∃ who, Finds fleet w w' who
      (s.found k path)) (h : Decodes o s batch) {entry : MergedRecord} (hentry : entry ∈ batch)
    {i : ι} (hi : identityOf entry = (fleet i).identity) :
    ∃ t y e, (t, y) ∈ log (fleet i).lg (w' i).shared ∧ (fleet i).Tells y e entry := by
  obtain ⟨paths, -, hmem⟩ := mem_decodes h
  obtain ⟨k, path, x, -, hfrom, hx⟩ := (hmem entry).mp hentry
  obtain ⟨who, hfound⟩ := hfinds k path
  generalize s.found k path = found at hfrom hfound
  cases hfound with
  | missing =>
    obtain ⟨size, bytes, h, heq, -⟩ := hfrom.file
    cases heq
  | other hother =>
    obtain ⟨hwhole, image, r, hbytes, hopen, hidentity⟩ := hfrom.identity
    exact absurd ((hidentity entry hx).symm.trans hi) (hother hwhole image r hbytes hopen i)
  | copy j hcopy hwhole =>
    obtain ⟨x', hfrom', hall, -⟩ := (fleet j).loaded_of_copy (hw j) hcopy hwhole
    obtain rfl := hfrom.unique hfrom'
    obtain ⟨t, y, e, hy, htells⟩ := hall entry hx
    have hj : identityOf entry = (fleet j).identity := by
      obtain ⟨hprocess, hrest⟩ := Prod.mk.inj htells.key
      exact Prod.ext hprocess (Prod.mk.inj hrest).1
    obtain rfl := hdistinct j i (hj.symm.trans hi)
    exact ⟨t, y, e, hy, htells⟩

/-- What was in the log of a process when the scan began is met. -/
theorem met_of_meets (hw : ∀ i, (fleet i).Running (w i)) (h : Decodes o s batch) {i : ι}
    (hmeets : Meets fleet w w' s o i) {t : (fleet i).Thread} {y : Shown} {e : Emission}
    (hy : (t, y) ∈ log (fleet i).lg (w i).shared) (he : y.written = .message e) :
    ∃ entry ∈ batch, (fleet i).Tells y e entry := by
  obtain ⟨paths, hpaths, hmem⟩ := mem_decodes h
  obtain ⟨paths', k, path, hpaths', hpath, hfound⟩ := hmeets
  obtain rfl := Except.ok.inj (hpaths.symm.trans hpaths')
  generalize hfile : s.found k path = found at hfound
  cases hfound with
  | copy _ hcopy hwhole =>
    obtain ⟨x, hfrom, -, hearly⟩ := (fleet i).loaded_of_copy (hw i) hcopy hwhole
    obtain ⟨entry, hentry, htells⟩ := hearly t y e hy he
    exact ⟨entry, (hmem entry).mpr ⟨k, path, x, hpath, hfile ▸ hfrom, hentry⟩, htells⟩

end Fleet

theorem getElem?_of_forall₂ {α β : Type} {R : α → β → Prop} {l : List α} {l' : List β}
    (h : List.Forall₂ R l l') {n : Nat} {b : β} (hb : l'[n]? = some b) :
    ∃ a, l[n]? = some a ∧ R a b := by
  induction h generalizing n with
  | nil => cases hb
  | cons hR _ ih =>
    cases n with
    | zero =>
      obtain rfl := Option.some.inj hb
      exact ⟨_, rfl, hR⟩
    | succ n => exact ih hb

/-- What was met was decoded by a scan. -/
theorem decoded_of_met {o : Options} {scans : List Scan} {batches : List (List MergedRecord)}
    {part : List MergedRecord}
    (hdecodes : List.Forall₂ (Decodes o) (scans.take batches.length) batches)
    (hpart : part ≠ [] → ∃ s batch, scans[batches.length]? = some s ∧ Decodes o s batch ∧
      part <+: batch) {x : Nat × MergedRecord} (hx : x ∈ metIn batches part) :
    ∃ s batch, scans[x.1]? = some s ∧ Decodes o s batch ∧ x.2 ∈ batch := by
  rcases List.mem_append.mp hx with hx | hx
  · obtain ⟨batch, hbatch, hentry⟩ := mem_occurrences.mp hx
    obtain ⟨s, hs, hdecoded⟩ := getElem?_of_forall₂ hdecodes hbatch
    rw [List.getElem?_take] at hs
    split at hs
    · exact ⟨s, batch, hs, hdecoded, hentry⟩
    · cases hs
  · obtain ⟨entry, hentry, rfl⟩ := List.mem_map.mp hx
    obtain ⟨s, batch, hs, hdecoded, hprefix⟩ := hpart (List.ne_nil_of_mem hentry)
    exact ⟨s, batch, hs, hdecoded, hprefix.subset hentry⟩

/-- **Following processes that log.** Whatever their threads do, whatever else lies in the
directories and wherever the loop stops, it does not fault, and of the Messages of the processes:
what bears the identity of a process is a Message that was in its log by the end of the scan;
none is printed twice; and every wanted one that was in the log when a complete scan that opens
the file began has been printed by then. -/
theorem follow_live {ι : Type} {fleet : ι → Process}
    (hdistinct : ∀ i j, (fleet i).identity = (fleet j).identity → i = j) (o : Options) (c : Console)
    (hfollow : o.follow = true) (scans : List Scan) (w : Nat → World fleet)
    (hstart : ∀ i, (fleet i).Running (w 0 i))
    (hgoes : ∀ j i, Reachable (sem (fleet i).lg) (w j i) (w (j + 1) i))
    (hfinds : ∀ j s, scans[j]? = some s →
      ∀ k path, ∃ who, Finds fleet (w j) (w (j + 1)) who (s.found k path)) :
    ∃ r stop n, run o c scans Run.start = .ok (r, stop) ∧ n ≤ scans.length ∧
      (stop = none → n = scans.length) ∧
      (∀ line ∈ r.lines, ∀ i, identityOf line.entry = (fleet i).identity →
        wanted o line.entry.record = true ∧ ∃ t y e,
          (t, y) ∈ log (fleet i).lg (w (line.scan + 1) i).shared ∧
          (fleet i).Tells y e line.entry) ∧
      (r.lines.map fun line => keyOf line.entry).Nodup ∧
      ∀ j s, j < n → scans[j]? = some s → ∀ i, Meets fleet (w j) (w (j + 1)) s o i →
        ∀ t y e, (t, y) ∈ log (fleet i).lg (w j i).shared → y.written = .message e →
          (∀ rec, Delivers (fleet i).lg e rec → wanted o rec = true) →
          ∃ line ∈ r.lines, line.scan ≤ j ∧ (fleet i).Tells y e line.entry := by
  have hrunning : ∀ j i, (fleet i).Running (w j i) := by
    intro j i
    induction j with
    | zero => exact hstart i
    | succ j ih => exact Relation.ReflTransGen.trans ih (hgoes j i)
  have hlater : ∀ {j k} i, j ≤ k → Reachable (sem (fleet i).lg) (w j i) (w k i) := by
    intro j k i hjk
    induction hjk with
    | refl => exact Relation.ReflTransGen.refl
    | step _ ih => exact Relation.ReflTransGen.trans ih (hgoes _ i)
  have hempty : Following o c (occurrences []) Run.start := following_start o c
  obtain ⟨r, stop, batches, part, hrun, hdecodes, hdone, hpart, h⟩ :=
    run_delivers hfollow scans hempty rfl
  rw [List.nil_append] at h
  have hpart' : part ≠ [] → ∃ s batch, scans[batches.length]? = some s ∧ Decodes o s batch ∧
      part <+: batch := by
    intro hne
    have hstopped : stop ≠ none := fun hnone => hne (hdone hnone).2
    obtain ⟨s, hs, hdecoded⟩ := hpart hstopped
    obtain ⟨batch, hbatch, hprefix⟩ := hdecoded hne
    exact ⟨s, batch, hs, hbatch, hprefix⟩
  have hmet : ∀ x ∈ metIn batches part, ∀ i, identityOf x.2 = (fleet i).identity →
      ∃ t y e, (t, y) ∈ log (fleet i).lg (w (x.1 + 1) i).shared ∧ (fleet i).Tells y e x.2 := by
    intro x hx i hi
    obtain ⟨s, batch, hs, hdecoded, hentry⟩ := decoded_of_met hdecodes hpart' hx
    exact tells_of_identity hdistinct (hrunning x.1) (hfinds x.1 s hs) hdecoded hentry hi
  have hlength : batches.length ≤ scans.length := by
    have hlengths := hdecodes.length_eq
    rw [List.length_take] at hlengths
    omega
  refine ⟨r, stop, batches.length, hrun, hlength, fun hnone => (hdone hnone).1, ?_, ?_, ?_⟩
  · -- what is printed was met
    intro line hline i hi
    have hwhat := List.mem_map_of_mem (f := Line.what) hline
    rw [h.lines] at hwhat
    obtain ⟨hfresh, hwanted⟩ := List.mem_filter.mp hwhat
    exact ⟨hwanted, hmet line.what (fresh_sublist.subset hfresh) i hi⟩
  · -- of each key one line
    have hkeys : (r.lines.map fun line => keyOf line.entry) =
        (r.lines.map Line.what).map metKey := by
      rw [List.map_map]
      rfl
    rw [hkeys, h.lines]
    exact (fresh_nodup [] _).sublist (List.filter_sublist.map _)
  · intro j s hj hs i hmeets t y e hy he hwanted
    obtain ⟨batch, hbatch⟩ : ∃ batch, batches[j]? = some batch :=
      ⟨_, List.getElem?_eq_getElem hj⟩
    obtain ⟨s', hs', hdecoded⟩ := getElem?_of_forall₂ hdecodes hbatch
    rw [List.getElem?_take, if_pos hj] at hs'
    obtain rfl := Option.some.inj (hs.symm.trans hs')
    obtain ⟨entry, hentry, htells⟩ := met_of_meets (hrunning j) hdecoded hmeets hy he
    -- the first record of its key was met no later
    obtain ⟨rest, hsplit⟩ : ∃ rest, metIn batches part =
        occurrences (batches.take (j + 1)) ++ rest := by
      obtain ⟨rest, hrest⟩ := occurrences_append (batches.take (j + 1)) (batches.drop (j + 1))
      rw [List.take_append_drop] at hrest
      unfold metIn
      rw [hrest, List.append_assoc]
      exact ⟨_, rfl⟩
    have hnow : (j, entry) ∈ occurrences (batches.take (j + 1)) := by
      refine mem_occurrences.mpr ⟨batch, ?_, hentry⟩
      rw [List.getElem?_take, if_pos (Nat.lt_succ_self j)]
      exact hbatch
    obtain ⟨x, hx, hkey, hearly⟩ : ∃ x ∈ fresh metKey []
        (occurrences (batches.take (j + 1)) ++ rest), metKey x = metKey (j, entry) ∧
          x ∈ occurrences (batches.take (j + 1)) := exists_fresh hnow rest
    rw [← hsplit] at hx
    have hle : x.1 ≤ j := by
      obtain ⟨batch', hbatch', -⟩ := mem_occurrences.mp hearly
      obtain ⟨hlt, -⟩ := List.getElem?_eq_some_iff.mp hbatch'
      rw [List.length_take] at hlt
      omega
    -- it is the same Message
    have hkey' : keyOf x.2 = ((fleet i).identity.1, (fleet i).identity.2, y.address) :=
      hkey.trans htells.key
    have hidentity : identityOf x.2 = (fleet i).identity := by
      obtain ⟨hprocess, hrest⟩ := Prod.mk.inj hkey'
      exact Prod.ext hprocess (Prod.mk.inj hrest).1
    obtain ⟨t', y', e', hy', htells'⟩ := hmet x (fresh_sublist.subset hx) i hidentity
    have haddress : y'.address = y.address := by
      obtain ⟨-, hrest⟩ := Prod.mk.inj (htells'.key.symm.trans hkey')
      exact (Prod.mk.inj hrest).2
    have hsame : (t', y') = (t, y) :=
      (fleet i).log_address (hrunning (j + 1) i)
        ((fleet i).log_grows (hrunning _ i) (hlater i (Nat.succ_le_succ hle)) hy')
        ((fleet i).log_grows (hrunning j i) (hgoes j i) hy) haddress
    obtain ⟨-, rfl⟩ := Prod.mk.inj hsame
    obtain rfl : e = e' := Written.message.inj (he.symm.trans htells'.message)
    have hprinted : x ∈ r.lines.map Line.what := by
      rw [h.lines]
      exact List.mem_filter.mpr ⟨hx, hwanted _ htells'.delivers⟩
    obtain ⟨line, hline, rfl⟩ := List.mem_map.mp hprinted
    exact ⟨line, hline, hle, htells'⟩

/-! A process that emits once. Its segment is copied while it emits, and then again. -/

theorem stampedEmit_one :
    ((smallLaunch one_chunk plainSite).setting stampedEmit).OneDefinition := by
  intro t d hd
  rcases List.mem_singleton.mp hd with heq
  cases heq

def stampedProcess : Process where
  Thread := Unit
  lg := smallLogger 1 plainSite
  launch := smallLaunch one_chunk plainSite
  calls := stampedEmit
  one := stampedEmit_one

def stampedFleet (_ : Unit) : Process := stampedProcess

/-- The process at two moments. -/
def worldOf (p p' : Pool Op.Answer Unit (State Unit) Unit) : Nat → World stampedFleet
  | 0, _ => p
  | _ + 1, _ => p'

/-- A scan of two inputs, the second of which is missing. -/
def stampedScan (bytes : List UInt8) : Scan where
  inputs := [.other ⟨false, [[97]]⟩, .other ⟨false, [[98]]⟩]
  found := fun _ path =>
    if path.names = [[97]] then .file bytes.length bytes (Nat.le_refl _) else .missing
  cancelled := fun _ => none
  written := fun _ => true
  flushed := true

theorem stampedScan_finds {w w' : World stampedFleet} {bytes : List UInt8}
    (hcopy : LiveCopy (smallLogger 1 plainSite) ⟨w (), []⟩ ⟨w' (), bytes⟩)
    (hwhole : bytes.length = (smallLogger 1 plainSite).segment.segmentBytes) (k : Nat)
    (path : Path) : ∃ who, Finds stampedFleet w w' who ((stampedScan bytes).found k path) := by
  unfold stampedScan
  by_cases hpath : path.names = [[97]]
  · simp only [if_pos hpath]
    have hfinds : Finds stampedFleet w w' (some ())
        (.file bytes.length bytes (Nat.le_refl _)) := Finds.copy () hcopy hwhole
    exact ⟨_, hfinds⟩
  · simp only [if_neg hpath]
    exact ⟨none, .missing⟩

/-- A copy while the process runs, and then one while it stands still. -/
theorem scans_find {p : Pool Op.Answer Unit (State Unit) Unit}
    {q : Reading (Pool Op.Answer Unit (State Unit) Unit)} {bytes : List UInt8}
    (hlive : LiveCopy (smallLogger 1 plainSite) ⟨p, []⟩ q)
    (hthen : LiveCopy (smallLogger 1 plainSite) ⟨q.system, []⟩ ⟨q.system, bytes⟩)
    (hwhole : q.copied.length = (smallLogger 1 plainSite).segment.segmentBytes)
    (hwhole' : bytes.length = (smallLogger 1 plainSite).segment.segmentBytes) (j : Nat) (s : Scan)
    (hs : [stampedScan q.copied, stampedScan bytes][j]? = some s) (k : Nat) (path : Path) :
    ∃ who, Finds stampedFleet (worldOf p q.system j) (worldOf p q.system (j + 1)) who
      (s.found k path) := by
  obtain _ | _ | j := j
  · obtain rfl := Option.some.inj hs
    exact stampedScan_finds hlive hwhole k path
  · obtain rfl := Option.some.inj hs
    exact stampedScan_finds hthen hwhole' k path
  · cases hs

/-- The bytes that are copied after the emit. -/
def stampedBytes : List UInt8 :=
  (copyWords (fun p => p.shared.mapped) 320 40 ⟨midStamp.system, []⟩).copied

theorem stampedBytes_live :
    LiveCopy (smallLogger 1 plainSite) ⟨midStamp.system, []⟩ ⟨midStamp.system, stampedBytes⟩ :=
  copies_standing _ _ _ _ _

theorem stampedBytes_whole :
    stampedBytes.length = (smallLogger 1 plainSite).segment.segmentBytes := by
  decide +kernel

def stampedWorld : Nat → World stampedFleet :=
  worldOf ((smallLaunch one_chunk plainSite).pool stampedEmit) midStamp.system

theorem stampedWorld_goes (j : Nat) (i : Unit) : Reachable (sem (stampedFleet i).lg)
    (stampedWorld j i) (stampedWorld (j + 1) i) :=
  match j with
  | 0 => midStamp_live.system
  | _ + 1 => Relation.ReflTransGen.refl

def stampedScans : List Scan := [stampedScan midStamp.copied, stampedScan stampedBytes]

def stampedOptions : Options := { followOptions with maxInputBytes := 320 }

theorem follow_live_stamped :
    ∃ r stop n, run stampedOptions siteConsole stampedScans Run.start = .ok (r, stop) ∧
      n ≤ stampedScans.length ∧ (stop = none → n = stampedScans.length) ∧
      (∀ line ∈ r.lines, ∀ i, identityOf line.entry = (stampedFleet i).identity →
        wanted stampedOptions line.entry.record = true ∧ ∃ t y e,
          (t, y) ∈ log (stampedFleet i).lg (stampedWorld (line.scan + 1) i).shared ∧
          (stampedFleet i).Tells y e line.entry) ∧
      (r.lines.map fun line => keyOf line.entry).Nodup ∧
      ∀ j s, j < n → stampedScans[j]? = some s →
        ∀ i, Meets stampedFleet (stampedWorld j) (stampedWorld (j + 1)) s stampedOptions i →
          ∀ t y e, (t, y) ∈ log (stampedFleet i).lg (stampedWorld j i).shared →
            y.written = .message e →
            (∀ rec, Delivers (stampedFleet i).lg e rec → wanted stampedOptions rec = true) →
            ∃ line ∈ r.lines, line.scan ≤ j ∧ (stampedFleet i).Tells y e line.entry := by
  exact follow_live (fun _ _ _ => rfl) stampedOptions siteConsole rfl stampedScans stampedWorld
    (fun _ => Relation.ReflTransGen.refl) stampedWorld_goes
    (scans_find midStamp_live stampedBytes_live midStamp_whole stampedBytes_whole)

end Sub0Log.Cat
