import Sub0Log.Abi.Payload

/-!
# Sites that are defined again

The host writes a definition whenever a plugin announces one, so a segment may hold several
for one id: a plugin is unloaded, and the next one has its descriptors at the same addresses.
The writer goes by the latest, the decoder by the first it meets. **`redefinition_iff`** says
which Messages decode under the definition they were emitted with: those for which the two
say the same.
-/

open Bytes Checked Interleaving

namespace Sub0Log.Abi

open Wire Producer Reader Sub0Log.System

variable {κ τ : Type} {lg : κ → Logger τ} {t : τ} {k : κ}

/-! ### The definitions of an id -/

/-- The definition a call brings for `id`. -/
def HostCall.definitionFor? (id : UInt64) : HostCall κ → Option SiteDefinition
  | .defineSite d => if d.siteId = id then some d else none
  | .emitRecord _ | .rebind _ => none

/-- The definitions written for `id`, in order. -/
def definitionsFor (id : UInt64) (done : List (HostCall κ × RecordView)) : List SiteDefinition :=
  done.filterMap fun q => q.1.definitionFor? id

/-- The site a decoder has for an id is what the segment keeps of the first definition. -/
theorem siteFor_first (capacity : Nat) (id : UInt64) (done : List (HostCall κ × RecordView)) :
    siteFor (done.filterMap fun q => q.1.site? capacity) id =
      (definitionsFor id done).head?.map (keptSite capacity) := by
  induction done with
  | nil => rfl
  | cons q done ih =>
    obtain ⟨c, v⟩ := q
    unfold definitionsFor at ih ⊢
    cases c with
    | defineSite d =>
      show siteFor ([keptSite capacity d] ++ done.filterMap fun q => q.1.site? capacity) id = _
      rw [siteFor_append, siteFor_single, List.filterMap_cons]
      by_cases hid : d.siteId = id
      · have hkept : (keptSite capacity d).siteId = id := hid
        have hfirst : (HostCall.defineSite d : HostCall κ).definitionFor? id = some d := if_pos hid
        simp only [if_pos hkept, hfirst, Option.some_or, List.head?_cons, Option.map_some]
      · have hkept : (keptSite capacity d).siteId ≠ id := hid
        have hother : (HostCall.defineSite d : HostCall κ).definitionFor? id = none := if_neg hid
        simp only [if_neg hkept, hother, Option.none_or]
        exact ih
    | emitRecord record => exact ih
    | rebind k' => exact ih

/-! ### Decoding under a definition -/

/-- The site says what the definition does. -/
structure Agrees (site : DecodedSite) (d : SiteDefinition) : Prop where
  format : site.format = d.format
  argTypes : site.argTypes = d.typeCodes.map TypeCode.ofByte
  severity : site.severity = d.severity
  subsystem : site.subsystem = d.subsystem

/-- A record that a Message decoded to, under this definition. -/
structure DecodesUnder (recs : List DecodedRecord) (v : RecordView) (d : SiteDefinition)
    (args : List PluginArg) (rec : DecodedRecord) : Prop where
  mem : rec ∈ recs
  offset : rec.recordOffset = v.recordOffset
  site : Agrees rec.site d
  args : rec.args = args.map PluginArg.decoded

/-- A Message that was emitted with arguments for the definition `d`, in a segment whose first
definition of the id is `first`. -/
theorem decodesUnder_iff {r : SegmentReader} {visited : Visit} {recs : List DecodedRecord}
    {decoder : Decoder} (hvisit : visit r = .ok visited)
    (hdecode : decodeAll Decoder.fresh r = .ok (recs, decoder)) {record : AbiRecord}
    {v : RecordView} (hv : v ∈ visited.records)
    (hshown : ShowsCall (κ := κ) (lg k) t (.emitRecord (some record)) v)
    {first : DecodedSite} {d : SiteDefinition} {args : List PluginArg}
    (hfirst : siteFor (definitions visited.records) record.siteId = some first)
    (hcodes : d.typeCodes.map TypeCode.ofByte = args.map PluginArg.code)
    (hcarries : record.Carries (args.flatMap PluginArg.encode)) :
    (∃ rec, DecodesUnder recs v d args rec) ↔
      Agrees first d ∧ record.payloadBytes.toNat ≤ cMaxPayload := by
  obtain ⟨hkind, hsingle, own, hmessage⟩ := message_ofCall hshown
  obtain ⟨recs', d', hdecode', hreturns⟩ := decodeAll_single hvisit hv hkind hsingle
  obtain ⟨rfl, -⟩ := Prod.mk.inj (Except.ok.inj (hdecode.symm.trans hdecode'))
  have hreads := hmessage (definitions visited.records) r.header.generation
  rw [hfirst, Option.bind_some] at hreads
  constructor
  · rintro ⟨rec, hrec⟩
    have hsome := (hreturns rec).mp ⟨hrec.mem, hrec.offset⟩
    rw [hreads] at hsome
    obtain ⟨read, hread, heq⟩ := Option.map_eq_some_iff.mp hsome
    have hsite : rec.site = first := by rw [← heq]
    have hagrees := hrec.site
    rw [hsite] at hagrees
    refine ⟨hagrees, Nat.le_of_not_lt fun hlong => ?_⟩
    -- a payload that was cut does not decode under any definition it was made for
    obtain ⟨hencoded, hlt⟩ := encoded_cut hcarries hlong
    rw [hagrees.argTypes, hcodes, hencoded, argsAt_cut _ _ hlt] at hread
    cases hread
  · rintro ⟨hagrees, hshort⟩
    rw [hagrees.argTypes, hcodes, encoded_eq hcarries hshort, argsAt_encode] at hreads
    obtain ⟨hmem, hoffset⟩ := (hreturns _).mpr hreads
    exact ⟨_, hmem, hoffset, hagrees, rfl⟩

variable [DecidableEq κ] [DecidableEq τ]

/-- **The first definition stays.** After any sequence of calls by one thread, an emit that
was written with a payload for the latest definition of its site decodes under that definition
when the first one of the site, as far as the segment keeps it, says the same and the payload
was not cut. -/
theorem redefinition_iff {calls : List (HostCall κ)} (hcalls : ∀ k', .rebind k' ∉ calls)
    {p p' : Pool (ι := HostOp κ) HostOp.Answer τ (HostState κ τ) Unit}
    (hbound : p.shared.Bound lg k) (hprog : p.prog t = thread lg calls)
    (hrun : ReachableBy (sem lg) t p p') (hreturned : p'.prog t = .ret ()) :
    ∃ r visited done recs decoder,
      openImage (image (lg k).segment (p'.shared.view k).mapped) = .ok r ∧
      visit r = .ok visited ∧ Recorded (lg k) t calls visited.records done ∧
      decodeAll Decoder.fresh r = .ok (recs, decoder) ∧
      ∀ before record v after first latest args,
        done = before ++ (.emitRecord (some record), v) :: after →
        (definitionsFor record.siteId before).head? = some first →
        (definitionsFor record.siteId before).getLast? = some latest →
        latest.typeCodes.map TypeCode.ofByte = args.map PluginArg.code →
        record.Carries (args.flatMap PluginArg.encode) →
        ((∃ rec, DecodesUnder recs v latest args rec) ↔
          Agrees (keptSite (lg k).segment.capacity first) latest ∧
            record.payloadBytes.toNat ≤ cMaxPayload) := by
  obtain ⟨r, visited, done, hopen, hvisit, hrecorded⟩ :=
    calls_visit hcalls hbound hprog hrun hreturned
  obtain ⟨visited', d, s, hvisit', -, hdecode, -, -, -⟩ := decodeAll_run r
  obtain rfl : visited' = visited := Except.ok.inj (hvisit'.symm.trans hvisit)
  refine ⟨r, visited', done, _, _, hopen, hvisit, hrecorded, hdecode, ?_⟩
  intro before record v after first latest args hdone hfirst hlatest hcodes hcarries
  have hmem : (HostCall.emitRecord (some record), v) ∈ done := by
    rw [hdone]
    exact List.mem_append_right _ List.mem_cons_self
  have hv : v ∈ visited'.records := by
    rw [← hrecorded.records]
    exact List.mem_map_of_mem hmem
  -- what the decoder goes by was written before the Message
  have hsite : siteFor (definitions visited'.records) record.siteId =
      some (keptSite (lg k).segment.capacity first) := by
    rw [hrecorded.definitions, siteFor_first, hdone]
    unfold definitionsFor at hfirst ⊢
    rw [List.filterMap_append, List.head?_append, hfirst]
    rfl
  exact decodesUnder_iff hvisit hdecode hv (hrecorded.shown _ hmem) hsite hcodes hcarries

/-! ### A plugin loaded at another's addresses -/

theorem redefinition_iff_plain :
    ∃ r visited done recs decoder,
      openImage (image (plainHost ()).segment
        ((runThread plainHost () plainPool).shared.view ()).mapped) = .ok r ∧
      visit r = .ok visited ∧ Recorded (plainHost ()) () plainCalls visited.records done ∧
      decodeAll Decoder.fresh r = .ok (recs, decoder) ∧
      ∀ before record v after first latest args,
        done = before ++ (.emitRecord (some record), v) :: after →
        (definitionsFor record.siteId before).head? = some first →
        (definitionsFor record.siteId before).getLast? = some latest →
        latest.typeCodes.map TypeCode.ofByte = args.map PluginArg.code →
        record.Carries (args.flatMap PluginArg.encode) →
        ((∃ rec, DecodesUnder recs v latest args rec) ↔
          Agrees (keptSite (plainHost ()).segment.capacity first) latest ∧
            record.payloadBytes.toNat ≤ cMaxPayload) :=
  redefinition_iff (fun k' hmem => by simp [plainCalls] at hmem) plainPool_bound rfl
    (runThread_reachable plainHost () plainPool)
    (show Function.update plainPool.prog () (.ret ()) () = .ret () from Function.update_self _ _ _)

/-- How many records a reader finds in an image. -/
def recordsFound (img : Image) : Option Nat :=
  match openImage img with
  | .error _ => none
  | .ok r => match visit r with
    | .error _ => none
    | .ok v => some v.records.length

theorem recordsFound_eq {img : Image} {r : SegmentReader} {v : Visit}
    (hopen : openImage img = .ok r) (hvisit : visit r = .ok v) :
    recordsFound img = some v.records.length := by
  unfold recordsFound
  rw [hopen]
  simp only
  rw [hvisit]

/-- One format, then another for the same id, then a Message of the second. -/
def reloadCalls : List (HostCall Unit) :=
  [.defineSite (plainDefinition 1 111), .defineSite (plainDefinition 1 112),
    .emitRecord (some (plainRecord 1))]

def reloadPool : Pool (ι := HostOp Unit) HostOp.Answer Unit (HostState Unit Unit) Unit :=
  ⟨smallStart Unit 2, fun _ => thread plainHost reloadCalls⟩

/-- The Message of the second plugin does not decode under the second plugin's definition. -/
theorem latest_not_used :
    ¬ ∀ (calls : List (HostCall Unit)), (∀ k', .rebind k' ∉ calls) →
      ∀ (p p' : Pool (ι := HostOp Unit) HostOp.Answer Unit (HostState Unit Unit) Unit),
      p.shared.Bound plainHost () → p.prog () = thread plainHost calls →
      ReachableBy (sem plainHost) () p p' → p'.prog () = .ret () →
      ∃ r visited done recs decoder,
        openImage (image (plainHost ()).segment (p'.shared.view ()).mapped) = .ok r ∧
        visit r = .ok visited ∧ Recorded (plainHost ()) () calls visited.records done ∧
        decodeAll Decoder.fresh r = .ok (recs, decoder) ∧
        ∀ before record v after latest args,
          done = before ++ (.emitRecord (some record), v) :: after →
          (definitionsFor record.siteId before).getLast? = some latest →
          latest.typeCodes.map TypeCode.ofByte = args.map PluginArg.code →
          record.Carries (args.flatMap PluginArg.encode) →
          ∃ rec, DecodesUnder recs v latest args rec := by
  intro hall
  obtain ⟨r, visited, done, recs, decoder, hopen, hvisit, hrecorded, hdecode, hlatest⟩ :=
    hall reloadCalls (fun k' hmem => by simp [reloadCalls] at hmem) reloadPool
      (runThread plainHost () reloadPool) plainPool_bound rfl
      (runThread_reachable plainHost () reloadPool)
      (show Function.update reloadPool.prog () (.ret ()) () = .ret () from
        Function.update_self _ _ _)
  -- every call wrote its record
  have hthree : visited.records.length = 3 := by
    have hfound : recordsFound (image (plainHost ()).segment
        ((runThread plainHost () reloadPool).shared.view ()).mapped) = some 3 := by
      decide +kernel
    rw [recordsFound_eq hopen hvisit] at hfound
    exact Option.some.inj hfound
  have hcalls : done.map Prod.fst = reloadCalls := by
    refine hrecorded.calls.eq_of_length ?_
    rw [List.length_map, ← List.length_map (f := Prod.snd), hrecorded.records, hthree]
    rfl
  obtain ⟨⟨c₁, v₁⟩, done₁, rfl, rfl, htwo⟩ := List.map_eq_cons_iff.mp hcalls
  obtain ⟨⟨c₂, v₂⟩, done₂, rfl, rfl, hone⟩ := List.map_eq_cons_iff.mp htwo
  obtain ⟨⟨c₃, v₃⟩, done₃, rfl, rfl, hnone⟩ := List.map_eq_cons_iff.mp hone
  obtain rfl := List.map_eq_nil_iff.mp hnone
  have hunder := hlatest [_, _] (plainRecord 1) v₃ [] (plainDefinition 1 112) [] rfl rfl rfl
    ⟨rfl, rfl⟩
  have hfirst : siteFor (definitions visited.records) (plainRecord 1).siteId =
      some (keptSite (plainHost ()).segment.capacity (plainDefinition 1 111)) := by
    rw [hrecorded.definitions, siteFor_first]
    rfl
  have hv : v₃ ∈ visited.records := by
    rw [← hrecorded.records]
    simp
  have hshown := hrecorded.shown (.emitRecord (some (plainRecord 1)), v₃) (by simp)
  obtain ⟨hagrees, -⟩ := (decodesUnder_iff hvisit hdecode hv hshown hfirst rfl ⟨rfl, rfl⟩).mp hunder
  have hformats : (keptSite (plainHost ()).segment.capacity (plainDefinition 1 111)).format ≠
      (plainDefinition 1 112).format := by
    decide +kernel
  exact hformats hagrees.format

end Sub0Log.Abi
