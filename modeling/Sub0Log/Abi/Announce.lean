import Sub0Log.Abi.Effects
import Sub0Log.Abi.Runs

/-!
# Announce once, across the boundary

The host remembers of a site only which generation was last told of it. What carries the
promise that a Message is never written before its site's definition is the invariant
`HostInv.table`: whatever generation was ever stored in a slot, the Logger of that generation
has had a definition of the slot's site committed. Slots are never given up, so what a probe
finds may be old but never wrong, and the comparison in `emitRecord` errs towards refusing.

The site id zero marks a slot that nobody claimed. An emit that names it can take the
generation of a slot that is being claimed at that moment for its own
(`announce_once_zero`); for every other id the promise holds, and every call is accounted for
(**`announce_once`**).
-/

open Interleaving

namespace Sub0Log.Abi

open Wire Producer SiteAnnounceTable

variable {κ τ : Type}

/-! ### The invariant -/

/-- Logger `k` has had a definition of the site committed. -/
def Announced (l : List (HostEvent κ τ)) (k : κ) (siteId : UInt64) : Prop :=
  ∃ t a d, HostEvent.logged k (.committed t a (.definition d)) ∈ l ∧ d.siteId = siteId

theorem Announced.mono {l l' : List (HostEvent κ τ)} {k : κ} {siteId : UInt64}
    (h : Announced l k siteId) (hl : l <+: l') : Announced l' k siteId := by
  obtain ⟨t, a, d, hmem, hd⟩ := h
  exact ⟨t, a, d, hl.subset hmem, hd⟩

/-- Every Message comes after a definition of its site. -/
def AnnouncedFirst (l : List (HostEvent κ τ)) : Prop :=
  ∀ pre t k m post, l = pre ++ .message t k m :: post → m.siteId ≠ 0 → Announced pre k m.siteId

theorem AnnouncedFirst.append {l added : List (HostEvent κ τ)} (h : AnnouncedFirst l)
    (hadded : ∀ t k m, HostEvent.message t k m ∈ added → m.siteId ≠ 0 →
      Announced l k m.siteId) : AnnouncedFirst (l ++ added) := by
  intro pre t k m post heq hne
  rcases List.append_eq_append_iff.mp heq with ⟨c, rfl, hc⟩ | ⟨c, rfl, hc⟩
  · -- the Message is one of those added
    have hmem : HostEvent.message t k m ∈ added := by
      rw [hc]
      exact List.mem_append_right _ List.mem_cons_self
    exact (hadded t k m hmem hne).mono (List.prefix_append _ _)
  · cases c with
    | nil =>
      have hmem : HostEvent.message t k m ∈ added := by
        rw [List.nil_append] at hc
        rw [← hc]
        exact List.mem_cons_self
      have hl := hadded t k m hmem hne
      rw [List.append_nil] at hl
      exact hl
    | cons e c =>
      obtain ⟨rfl, -⟩ := List.cons.inj hc
      exact h pre t k m c rfl hne

/-- A drop of Logger `k`. -/
def HostEvent.isDropOf [DecidableEq κ] (k : κ) : HostEvent κ τ → Bool
  | logged k' e => decide (k' = k) && e.isDrop
  | active _ _ | threshold _ _ _ | message _ _ _ => false

section Invariant

variable [DecidableEq κ] (lg : κ → Logger τ) (start : HostState κ τ)

structure HostInv (s : HostState κ τ) : Prop where
  table : ∀ slot, ∀ g ∈ s.generations slot, s.siteIds slot ≠ 0 ∧
    ∃ k, (lg k).segment.generation = g ∧ Announced s.trace k (s.siteIds slot)
  first : AnnouncedFirst s.trace
  dropped : ∀ k, (s.logs k).dropped =
    ((start.logs k).dropped + s.trace.countP (HostEvent.isDropOf k)) % (lg k).counterWrap

/-- How the state may change: nothing that happened is taken back, and no slot is given up. -/
structure Grows (s s' : HostState κ τ) : Prop where
  trace : s.trace <+: s'.trace
  siteIds : ∀ slot, s.siteIds slot ≠ 0 → s'.siteIds slot = s.siteIds slot

omit [DecidableEq κ] in
theorem Grows.trans {s s' s'' : HostState κ τ} (h : Grows s s') (h' : Grows s' s'') :
    Grows s s'' := by
  refine ⟨h.trace.trans h'.trace, fun slot hne => ?_⟩
  have hsame := h.siteIds slot hne
  rw [h'.siteIds slot (by rwa [hsame]), hsame]

/-- Every thread relies on nothing but that. -/
def hostSpec : Spec τ (HostState κ τ) where
  inv := HostInv lg start
  env := fun _ => Grows
  env_refl := fun _ _ => ⟨List.prefix_rfl, fun _ _ => rfl⟩
  env_trans := fun _ _ _ _ => Grows.trans

/-- What an operation asks for: a generation is stored after the definition it stands for, and
a Message after that of its site. -/
def HostOp.Allowed (s : HostState κ τ) : HostOp κ → Prop
  | .storeGeneration slot g => s.siteIds slot ≠ 0 ∧
    ∃ k, (lg k).segment.generation = g ∧ Announced s.trace k (s.siteIds slot)
  | .publish k _ m => m.siteId ≠ 0 → Announced s.trace k m.siteId
  | _ => True

variable {lg start} [DecidableEq τ] {t : τ} {s s' : HostState κ τ}

omit [DecidableEq κ] in
/-- The counter counts the drops. -/
theorem dropped_step {lg : Logger τ} {op : Op} {r : op.Answer} {v v' : State τ}
    {new : List (Event τ)} (h : Producer.sem lg t op v r v') (htrace : v'.trace = v.trace ++ new)
    {n : Nat} (hn : v.dropped = n % lg.counterWrap) :
    v'.dropped = (n + new.countP Event.isDrop) % lg.counterWrap := by
  have hquiet : v'.dropped = v.dropped → (∀ e ∈ new, e.isDrop = false) →
      v'.dropped = (n + new.countP Event.isDrop) % lg.counterWrap := by
    intro hsame hnone
    rw [hsame, hn, List.countP_eq_zero.mpr fun e he => by simp [hnone e he], Nat.add_zero]
  have hnil : v'.trace = v.trace → new = [] := fun heq =>
    List.append_cancel_left (htrace.symm.trans (heq.trans (List.append_nil _).symm))
  have hpublication : ∀ a w, v'.trace = v.trace ++ publication t a w →
      ∀ e ∈ new, e.isDrop = false := by
    intro a w heq e he
    rw [List.append_cancel_left (htrace.symm.trans heq)] at he
    cases w with
    | none => cases he
    | some w => rw [List.mem_singleton.mp he]; rfl
  cases op with
  | claimChunkIndex =>
    have hv : v' = (claimChunkIndex lg t v).2 := congrArg Prod.snd h
    subst hv
    refine hquiet ?_ fun e he => ?_
    · unfold claimChunkIndex
      split
      · rfl
      · split <;> rfl
    · obtain ⟨new', htrace', -, hdeeds⟩ := trace_effects h
      obtain rfl : new = new' := List.append_cancel_left (htrace.symm.trans htrace')
      -- a claim is all it notes
      have hclaim : ¬e.claim?.isNone = true := by
        intro hnone
        have hmem : e ∈ deeds new := List.mem_filter.mpr ⟨he, hnone⟩
        rw [hdeeds] at hmem
        cases hmem
      cases e with
      | claimed => rfl
      | committed | dropped | truncated => exact absurd rfl hclaim
  | loadKey | currentThreadId | loadCache | copyOrder =>
    obtain rfl : v' = v := h.2
    refine hquiet rfl ?_
    rw [hnil rfl]
    exact fun _ he => absurd he List.not_mem_nil
  | monotonicNow =>
    obtain rfl : v' = v := h
    refine hquiet rfl ?_
    rw [hnil rfl]
    exact fun _ he => absurd he List.not_mem_nil
  | storeKey | storeCache | storeByte | storeLow32 =>
    obtain rfl : v' = _ := h
    refine hquiet rfl ?_
    rw [hnil rfl]
    exact fun _ he => absurd he List.not_mem_nil
  | store64 | storeHigh32 =>
    obtain rfl : v' = _ := h
    exact hquiet rfl (hpublication _ _ rfl)
  | countTruncation =>
    obtain rfl : v' = _ := h
    refine hquiet rfl fun e he => ?_
    rw [← List.append_cancel_left htrace, List.mem_singleton] at he
    rw [he]
    rfl
  | countDrop emit =>
    obtain rfl : v' = _ := h
    rw [← List.append_cancel_left htrace]
    show (v.dropped + 1) % lg.counterWrap = (n + 1) % lg.counterWrap
    rw [hn, Nat.mod_add_mod]

omit [DecidableEq τ] in
/-- A longer trace and more site ids keep the table. -/
private theorem table_kept (h : HostInv lg start s) (hgrows : Grows s s')
    (hgenerations : s'.generations = s.generations) :
    ∀ slot, ∀ g ∈ s'.generations slot, s'.siteIds slot ≠ 0 ∧
      ∃ k, (lg k).segment.generation = g ∧ Announced s'.trace k (s'.siteIds slot) := by
  intro slot g hg
  rw [hgenerations] at hg
  obtain ⟨hne, k, hk, hannounced⟩ := h.table slot g hg
  rw [hgrows.siteIds slot hne]
  exact ⟨hne, k, hk, hannounced.mono hgrows.trace⟩

/-- An operation of the producer's code, and the Message it makes visible. -/
private theorem inv_logger (h : HostInv lg start s) {k : κ} {op : Op} {r : op.Answer}
    {after : List (HostEvent κ τ)} (hstep : OnLogger lg t k op s r after s')
    (hafter : ∀ e ∈ after, ∃ m, e = .message t k m ∧
      (m.siteId ≠ 0 → Announced s.trace k m.siteId)) :
    HostInv lg start s' ∧ Grows s s' := by
  obtain ⟨v, new, hsem, htrace, rfl⟩ := hstep
  have hgrows : Grows s { s with
      logs := Function.update s.logs k v
      caches := v.caches
      trace := s.trace ++ new.map (.logged k) ++ after } :=
    ⟨by rw [List.append_assoc]; exact List.prefix_append _ _, fun _ _ => rfl⟩
  refine ⟨⟨table_kept h hgrows rfl, ?_, fun k' => ?_⟩, hgrows⟩
  · show AnnouncedFirst (s.trace ++ new.map (.logged k) ++ after)
    rw [List.append_assoc]
    refine h.first.append fun t' k' m hmem hne => ?_
    rcases List.mem_append.mp hmem with hnew | hafter'
    · obtain ⟨e, -, heq⟩ := List.mem_map.mp hnew
      cases heq
    · obtain ⟨m', heq, hannounced⟩ := hafter _ hafter'
      cases heq
      exact hannounced hne
  · have hquiet : after.countP (HostEvent.isDropOf k') = 0 := by
      refine List.countP_eq_zero.mpr fun e he => ?_
      obtain ⟨m, rfl, -⟩ := hafter e he
      exact Bool.false_ne_true
    show (Function.update s.logs k v k').dropped = _
    rw [List.countP_append, List.countP_append, hquiet, Nat.add_zero, List.countP_map]
    by_cases heq : k' = k
    · subst heq
      rw [Function.update_self, ← Nat.add_assoc]
      have hcount : (HostEvent.isDropOf k' ∘ HostEvent.logged k') =
          (Event.isDrop : Event τ → Bool) := by
        funext e
        show (decide (k' = k') && e.isDrop) = e.isDrop
        rw [decide_eq_true rfl, Bool.true_and]
      rw [hcount]
      exact dropped_step hsem htrace (h.dropped k')
    · have hother : new.countP (HostEvent.isDropOf k' ∘ HostEvent.logged k) = 0 := by
        refine List.countP_eq_zero.mpr fun e _ => ?_
        show ¬(decide (k = k') && e.isDrop) = true
        rw [decide_eq_false fun h => heq h.symm]
        exact Bool.false_ne_true
      rw [Function.update_of_ne heq, hother, Nat.add_zero]
      exact h.dropped k'

/-- **Every step** that does what is allowed keeps the invariant. -/
theorem HostInv.step (h : HostInv lg start s) {op : HostOp κ} {r : op.Answer}
    (hsem : sem lg t op s r s') (hallowed : op.Allowed lg s) :
    HostInv lg start s' ∧ Grows s s' := by
  -- a step that leaves the table and notes at most an event of its own
  have hnote : ∀ e : HostEvent κ τ, (∀ k, e.isDropOf k = false) →
      (∀ t k m, e ≠ .message t k m) → s' = { s with trace := s.trace ++ [e] } →
      HostInv lg start s' ∧ Grows s s' := by
    rintro e hdrop hmessage rfl
    have hgrows : Grows s { s with trace := s.trace ++ [e] } :=
      ⟨List.prefix_append _ _, fun _ _ => rfl⟩
    refine ⟨⟨table_kept h hgrows rfl, h.first.append fun t k m hmem _ => ?_, fun k => ?_⟩,
      hgrows⟩
    · exact absurd (List.mem_singleton.mp hmem).symm (hmessage t k m)
    · show (s.logs k).dropped = _
      rw [List.countP_append, List.countP_singleton, hdrop k]
      exact h.dropped k
  have hsame : ∀ {s'}, s'.logs = s.logs → s'.siteIds = s.siteIds →
      s'.generations = s.generations → s'.trace = s.trace → HostInv lg start s' ∧ Grows s s' := by
    intro s' hlogs hids hgenerations htrace
    have hgrows : Grows s s' := ⟨by rw [htrace], fun _ _ => by rw [hids]⟩
    refine ⟨⟨table_kept h hgrows hgenerations, ?_, fun k => ?_⟩, hgrows⟩
    · rw [htrace]
      exact h.first
    · rw [hlogs, htrace]
      exact h.dropped k
  cases op with
  | logger k op =>
    exact inv_logger h (show OnLogger lg t k op s r [] s' from hsem) fun _ he =>
      absurd he List.not_mem_nil
  | publish k op m =>
    refine inv_logger h (show OnLogger lg t k op s r [.message t k m] s' from hsem) fun e he => ?_
    exact ⟨m, List.mem_singleton.mp he, hallowed⟩
  | loadActive => exact hnote (.active t r) (fun _ => rfl) (fun _ _ _ h => by cases h) hsem.2
  | loadThreshold k subsystem =>
    exact hnote (.threshold t k r) (fun _ => rfl) (fun _ _ _ h => by cases h) hsem
  | loadSiteId | loadGeneration | loadUnbound =>
    obtain rfl : s' = s := hsem.2
    exact hsame rfl rfl rfl rfl
  | currentCorrelation =>
    obtain rfl : s' = s := hsem
    exact hsame rfl rfl rfl rfl
  | storeActive | countExhausted | incrementUnbound =>
    obtain rfl : s' = _ := hsem
    exact hsame rfl rfl rfl rfl
  | storeGeneration slot g =>
    obtain rfl : s' = _ := hsem
    refine ⟨⟨fun slot' g' hg' => ?_, h.first, h.dropped⟩, List.prefix_rfl, fun _ _ => rfl⟩
    change g' ∈ Function.update s.generations slot (s.generations slot ++ [g]) slot' at hg'
    by_cases heq : slot' = slot
    · subst heq
      rw [Function.update_self] at hg'
      rcases List.mem_append.mp hg' with hold | hnew
      · exact h.table slot' g' hold
      · rw [List.mem_singleton.mp hnew]
        exact hallowed
    · rw [Function.update_of_ne heq] at hg'
      exact h.table slot' g' hg'
  | claimSiteId slot siteId =>
    have hs : s' = (s.claimSiteId slot siteId).2 := congrArg Prod.snd hsem
    unfold HostState.claimSiteId at hs
    by_cases hfree : s.siteIds slot = 0
    · rw [if_pos hfree] at hs
      subst hs
      have hgrows : Grows s { s with siteIds := Function.update s.siteIds slot siteId } := by
        refine ⟨List.prefix_rfl, fun slot' hne => Function.update_of_ne (fun heq => hne ?_) _ _⟩
        rw [heq]
        exact hfree
      exact ⟨⟨table_kept h hgrows rfl, h.first, h.dropped⟩, hgrows⟩
    · rw [if_neg hfree] at hs
      subst hs
      exact hsame rfl rfl rfl rfl

/-! ### Rules -/

/-- A fact that stays, whatever any thread does. -/
def Lasting (F : HostState κ τ → Prop) : Prop := ∀ s s', Grows s s' → F s → F s'

/-- Code of the host between a precondition and a postcondition. -/
abbrev Meets (lg : κ → Logger τ) (start : HostState κ τ) (t : τ) {α : Type}
    (P : HostState κ τ → Prop) (x : HostCode κ α) (Q : α → HostState κ τ → Prop) : Prop :=
  (hostSpec lg start).Triple (sem lg) t P x Q

variable {F : HostState κ τ → Prop}

/-- One operation. -/
theorem op_meets {op : HostOp κ} {Q : op.Answer → HostState κ τ → Prop} (hF : Lasting F)
    (hallowed : ∀ s, HostInv lg start s → F s → op.Allowed lg s)
    (hQ : ∀ s r s', HostInv lg start s → F s → F s' → sem lg t op s r s' → Q r s') :
    Meets lg start t F (Prog.perform op) Q := by
  refine Spec.Triple.op (fun s s' hgrows => hF s s' hgrows) fun s r s' hinv hs hsem => ?_
  obtain ⟨hinv', hgrows⟩ := HostInv.step hinv hsem (hallowed s hinv hs)
  exact ⟨hinv', fun _ _ => hgrows, hQ s r s' hinv hs (hF s s' hgrows hs) hsem⟩

/-- An operation nothing is asked of and nothing learned from. -/
theorem op_lasts {op : HostOp κ} (hF : Lasting F) (hallowed : ∀ s, op.Allowed lg s) :
    Meets lg start t F (Prog.perform op) fun _ => F :=
  op_meets hF (fun s _ _ => hallowed s) fun _ _ _ _ _ hF' _ => hF'

/-- Code of the producer: what it has done is in the trace. -/
theorem onLogger_meets {α : Type} {x : Code α} {Q : α → List (Event τ) → Prop} (k : κ)
    (hF : Lasting F) (hx : Does t x Q) :
    Meets lg start t F (onLogger k x) fun a s =>
      (∃ l, Q a l ∧ ∀ e ∈ l, HostEvent.logged k e ∈ s.trace) ∧ F s := by
  -- the effects of the part that was run are one more lasting fact
  suffices hrun : ∀ (Q : α → List (Event τ) → Prop) (done : List (Event τ)),
      Does t x (fun a l => Q a (done ++ l)) →
      Meets lg start t (fun s => (∀ e ∈ done, HostEvent.logged k e ∈ s.trace) ∧ F s) (onLogger k x)
        fun a s => (∃ l, Q a l ∧ ∀ e ∈ l, HostEvent.logged k e ∈ s.trace) ∧ F s by
    refine Spec.Triple.conseq (hrun Q [] hx) (fun s _ hs => ⟨?_, hs⟩) fun _ _ _ h => h
    exact fun _ he => absurd he List.not_mem_nil
  clear hx Q
  induction x with
  | ret a =>
    intro Q done hx
    refine Spec.Triple.pure fun s _ hs => ⟨⟨done, ?_, hs.1⟩, hs.2⟩
    have hQ : Q a (done ++ []) := hx
    rwa [List.append_nil] at hQ
  | op i next ih =>
    intro Q done hx
    have hlasting : Lasting fun s => (∀ e ∈ done, HostEvent.logged k e ∈ s.trace) ∧ F s :=
      fun s s' hgrows hs => ⟨fun e he => hgrows.trace.subset (hs.1 e he), hF s s' hgrows hs.2⟩
    have hop : Meets lg start t (fun s => (∀ e ∈ done, HostEvent.logged k e ∈ s.trace) ∧ F s)
        (Prog.perform (HostOp.logger k i)) fun r s =>
          (∀ e ∈ done ++ i.effects t r, HostEvent.logged k e ∈ s.trace) ∧ F s := by
      refine op_meets hlasting (fun _ _ _ => trivial) fun s r s' _ _ hs' hsem => ⟨?_, hs'.2⟩
      intro e he
      rcases List.mem_append.mp he with hold | hnew
      · exact hs'.1 e hold
      · obtain ⟨added, htrace, -, heffects⟩ := host_trace hsem
        have hmem : HostEvent.logged k e ∈ added.filter fun e => !e.isClaim := by
          rw [heffects]
          exact List.mem_map_of_mem hnew
        rw [htrace]
        exact List.mem_append_right _ (List.mem_filter.mp hmem).1
    refine Spec.Triple.bind hop fun r => ih r Q (done ++ i.effects t r) ?_
    refine (hx r).mono fun a l hQ => ?_
    rwa [List.append_assoc]

/-- Code of the producer whose effects do not matter. -/
theorem onLogger_lasts {α : Type} (k : κ) (hF : Lasting F) (x : Code α) :
    Meets lg start t F (onLogger k x) fun _ => F := by
  have hany : Does t x fun _ _ => True := by
    induction x with
    | ret a => exact trivial
    | op i next ih => exact fun r => ih r
  exact Spec.Triple.conseq (onLogger_meets k hF hany) (fun _ _ hs => hs) fun _ _ _ h => h.2

/-! ### The table -/

omit [DecidableEq κ] [DecidableEq τ] in
theorem lasting_announced (hF : Lasting F) (k : κ) (siteId : UInt64) :
    Lasting fun s : HostState κ τ => Announced s.trace k siteId ∧ F s :=
  fun s s' hgrows hs => ⟨hs.1.mono hgrows.trace, hF s s' hgrows hs.2⟩

/-- A generation a probe answers is that of a segment that was told of the site. -/
def Told (lg : κ → Logger τ) (siteId generation : UInt64) (s : HostState κ τ) : Prop :=
  siteId ≠ 0 → generation = 0 ∨
    ∃ k, (lg k).segment.generation = generation ∧ Announced s.trace k siteId

theorem loadGeneration_meets (hF : Lasting F) (slot siteId : UInt64) :
    Meets lg start t (fun s => (siteId ≠ 0 → s.siteIds slot = siteId) ∧ F s) (loadGeneration slot)
      fun generation s => Told lg siteId generation s ∧ F s := by
  have hlasting : Lasting fun s : HostState κ τ =>
      (siteId ≠ 0 → s.siteIds slot = siteId) ∧ F s := by
    refine fun s s' hgrows hs => ⟨fun hne => ?_, hF s s' hgrows hs.2⟩
    rw [hgrows.siteIds slot (by rw [hs.1 hne]; exact hne), hs.1 hne]
  refine op_meets hlasting (fun _ _ _ => trivial) fun s r s' hinv hs hs' hsem => ⟨?_, hs'.2⟩
  obtain ⟨hmem, rfl⟩ : r ∈ (0 : UInt64) :: s.generations slot ∧ s' = s := hsem
  intro hne
  rcases List.mem_cons.mp hmem with hzero | hstored
  · exact Or.inl hzero
  · obtain ⟨-, k, hk, hannounced⟩ := hinv.table slot r hstored
    rw [hs.1 hne] at hannounced
    exact Or.inr ⟨k, hk, hannounced⟩

/-- `generationFor` errs towards zero. -/
theorem generationFrom_meets (hF : Lasting F) (siteId : UInt64) (tries : Nat) (slot : UInt64) :
    Meets lg start t F (generationFrom siteId tries slot) fun generation s =>
      Told lg siteId generation s ∧ F s := by
  have hzero : Meets lg start t F (pure 0) fun generation s =>
      Told lg siteId generation s ∧ F s :=
    Spec.Triple.pure fun s _ hs => ⟨fun _ => Or.inl rfl, hs⟩
  induction tries generalizing slot with
  | zero => exact Spec.Triple.bind (op_lasts hF fun _ => trivial) fun _ => hzero
  | succ tries ih =>
    have hload : Meets lg start t F (loadSiteId slot) fun key s =>
        (key ≠ 0 → s.siteIds slot = key) ∧ F s := by
      refine op_meets hF (fun _ _ _ => trivial) fun s r s' _ _ hs' hsem => ⟨?_, hs'⟩
      obtain ⟨rfl, rfl⟩ : r = s.siteIds slot ∧ s' = s := hsem
      exact fun _ => rfl
    refine Spec.Triple.bind hload fun key => ?_
    split
    · rename_i heq
      subst heq
      exact loadGeneration_meets hF slot key
    · split
      · exact Spec.Triple.conseq hzero (fun _ _ hs => hs.2) fun _ _ _ h => h
      · exact Spec.Triple.conseq (ih _) (fun _ _ hs => hs.2) fun _ _ _ h => h

/-- `record` stores a generation behind the definition it stands for. -/
theorem recordFrom_meets {siteId : UInt64} (hne : siteId ≠ 0) (k : κ) (hF : Lasting F)
    (tries : Nat) (slot : UInt64) :
    Meets lg start t (fun s => Announced s.trace k siteId ∧ F s)
      (recordFrom siteId (lg k).segment.generation tries slot) fun _ => F := by
  have hlasting := lasting_announced hF k siteId
  induction tries generalizing slot with
  | zero =>
    exact Spec.Triple.conseq (op_lasts hlasting fun _ => trivial) (fun _ _ hs => hs)
      fun _ _ _ h => h.2
  | succ tries ih =>
    have hclaim : Meets lg start t (fun s => Announced s.trace k siteId ∧ F s)
        (claimSiteId slot siteId) fun expected s =>
          (expected = 0 ∨ expected = siteId → s.siteIds slot = siteId) ∧
            Announced s.trace k siteId ∧ F s := by
      refine op_meets hlasting (fun _ _ _ => trivial) fun s r s' _ _ hs' hsem => ⟨?_, hs'⟩
      have hstep : (r, s') = s.claimSiteId slot siteId := hsem
      unfold HostState.claimSiteId at hstep
      split at hstep
      · obtain ⟨-, rfl⟩ := Prod.mk.inj hstep
        exact fun _ => Function.update_self _ _ _
      · rename_i hused
        obtain ⟨rfl, rfl⟩ := Prod.mk.inj hstep
        exact fun hr => hr.resolve_left hused
    refine Spec.Triple.bind hclaim fun expected => ?_
    split
    · rename_i hours
      have hslot : Lasting fun s : HostState κ τ =>
          s.siteIds slot = siteId ∧ Announced s.trace k siteId ∧ F s := by
        refine fun s s' hgrows hs => ⟨?_, hlasting s s' hgrows hs.2⟩
        rw [hgrows.siteIds slot (by rw [hs.1]; exact hne), hs.1]
      have hstore : Meets lg start t (fun s => s.siteIds slot = siteId ∧
          Announced s.trace k siteId ∧ F s)
          (storeGeneration slot (lg k).segment.generation) fun _ => F := by
        refine op_meets hslot (fun s _ hs => ?_) fun _ _ _ _ _ hs' _ => hs'.2.2
        refine ⟨by rw [hs.1]; exact hne, k, rfl, ?_⟩
        rw [hs.1]
        exact hs.2.1
      exact Spec.Triple.conseq hstore (fun _ _ hs => ⟨hs.1 hours, hs.2⟩) fun _ _ _ h => h
    · exact Spec.Triple.conseq (ih _) (fun _ _ hs => hs.2) fun _ _ _ h => h

/-! ### Calls -/

theorem countUnboundEmit_meets (hF : Lasting F) :
    Meets lg start t F countUnboundEmit fun _ => F := by
  refine Spec.Triple.bind (op_lasts hF fun _ => trivial) fun count => ?_
  split
  · exact op_lasts hF fun _ => trivial
  · exact Spec.Triple.pure fun _ _ hs => hs

/-- `sub0logAbiHostDefineSite`. -/
theorem defineSite_meets (d : SiteDefinition) (hne : d.siteId ≠ 0) (hF : Lasting F) :
    Meets lg start t F (defineSite lg d) fun _ => F := by
  refine Spec.Triple.bind (op_lasts hF fun _ => trivial) fun found => ?_
  cases found with
  | none => exact countUnboundEmit_meets hF
  | some k =>
    refine Spec.Triple.bind (onLogger_meets k hF (writeSiteDefinitionCore_does d none))
      fun written => ?_
    cases written with
    | false => exact Spec.Triple.pure fun s _ hs => hs.2
    | true =>
      refine Spec.Triple.conseq (recordFrom_meets hne k hF _ _) (fun s _ hs => ?_)
        fun _ _ _ h => h
      obtain ⟨⟨l, ⟨a, cut, rfl⟩, hmem⟩, hs⟩ := hs
      exact ⟨⟨t, a, d, hmem _ List.mem_cons_self, rfl⟩, hs⟩

/-- The head word of a Message is stored behind the definition of its site. -/
theorem commitMessage_meets (k : κ) (slot : Reservation) (flags : UInt8) (totalBytes : Nat)
    {m : Message} (hF : Lasting F)
    (hm : ∀ s, F s → m.siteId ≠ 0 → Announced s.trace k m.siteId) :
    Meets lg start t F (commitMessage lg k slot flags totalBytes m) fun _ => F := by
  unfold commitMessage
  by_cases hsplit : (lg k).split = true
  · simp only [if_pos hsplit]
    exact Spec.Triple.bind (onLogger_lasts k hF _) fun _ =>
      op_meets hF (fun s _ hs => hm s hs) fun _ _ _ _ _ hs' _ => hs'
  · simp only [if_neg hsplit]
    exact op_meets hF (fun s _ hs => hm s hs) fun _ _ _ _ _ hs' _ => hs'

theorem storeEncoded_meets (k : κ) (r : AbiRecord) (slot : Reservation) (hF : Lasting F) :
    Meets lg start t F (storeEncoded k r slot) fun _ => F := by
  unfold storeEncoded
  cases r.payload with
  | none => exact Spec.Triple.pure fun _ _ hs => hs
  | some bytes =>
    by_cases hsome : 0 < r.writtenBytes
    · simp only [if_pos hsome]
      exact onLogger_lasts k hF _
    · simp only [if_neg hsome]
      exact Spec.Triple.pure fun _ _ hs => hs

/-- `sub0logAbiHostEmit`. -/
theorem emitRecord_meets (hgeneration : ∀ k, (lg k).segment.generation ≠ 0)
    (hdistinct : ∀ k k', (lg k).segment.generation = (lg k').segment.generation → k = k')
    (record : Option AbiRecord) (hF : Lasting F) :
    Meets lg start t F (emitRecord lg record) fun _ => F := by
  cases record with
  | none => exact Spec.Triple.pure fun _ _ hs => hs
  | some r =>
    refine Spec.Triple.bind (op_lasts hF fun _ => trivial) fun found => ?_
    cases found with
    | none => exact countUnboundEmit_meets hF
    | some k =>
      refine Spec.Triple.bind (op_lasts hF fun _ => trivial) fun value => ?_
      by_cases hbelow : r.severity < value
      · simp only [if_pos hbelow]
        exact Spec.Triple.pure fun _ _ hs => hs
      simp only [if_neg hbelow]
      refine Spec.Triple.bind (generationFrom_meets hF _ _ _) fun generation => ?_
      by_cases hother : generation ≠ (lg k).segment.generation
      · simp only [if_pos hother]
        exact Spec.Triple.conseq (onLogger_lasts k hF _) (fun _ _ hs => hs.2) fun _ _ _ h => h
      simp only [if_neg hother]
      -- the generation is this segment's, so it is this segment that was told of the site
      have htold : Lasting fun s : HostState κ τ =>
          (r.siteId ≠ 0 → Announced s.trace k r.siteId) ∧ F s := fun s s' hgrows hs =>
        ⟨fun hne => (hs.1 hne).mono hgrows.trace, hF s s' hgrows hs.2⟩
      suffices hwrite : Meets lg start t (fun s : HostState κ τ =>
          (r.siteId ≠ 0 → Announced s.trace k r.siteId) ∧ F s) _ fun _ => F by
        refine Spec.Triple.conseq hwrite (fun s _ hs => ⟨fun hne => ?_, hs.2⟩) fun _ _ _ h => h
        rw [ne_eq, not_not] at hother
        subst hother
        rcases hs.1 hne with hzero | ⟨k', hk', hannounced⟩
        · exact absurd hzero (hgeneration k)
        · rwa [← hdistinct k' k hk']
      refine Spec.Triple.bind (onLogger_lasts k htold _) fun slot => ?_
      cases slot with
      | none => exact Spec.Triple.pure fun _ _ hs => hs.2
      | some slot =>
        refine Spec.Triple.bind (op_lasts htold fun _ => trivial) fun scope => ?_
        refine Spec.Triple.bind (onLogger_lasts k htold _) fun monoNs => ?_
        refine Spec.Triple.bind (onLogger_lasts k htold _) fun _ => ?_
        refine Spec.Triple.bind (storeEncoded_meets k r slot htold) fun _ => ?_
        refine Spec.Triple.bind (commitMessage_meets k slot _ _ htold fun s hs => hs.1) fun _ => ?_
        exact Spec.Triple.conseq (onLogger_lasts k htold _) (fun _ _ hs => hs) fun _ _ _ h => h.2

/-- All calls of a thread. -/
theorem thread_meets (hgeneration : ∀ k, (lg k).segment.generation ≠ 0)
    (hdistinct : ∀ k k', (lg k).segment.generation = (lg k').segment.generation → k = k')
    (hF : Lasting F) {calls : List (HostCall κ)}
    (hids : ∀ d, HostCall.defineSite d ∈ calls → d.siteId ≠ 0) :
    Meets lg start t F (thread lg calls) fun _ => F := by
  induction calls with
  | nil => exact Spec.Triple.pure fun _ _ hs => hs
  | cons c calls ih =>
    have hcall : Meets lg start t F (call lg c) fun _ => F := by
      cases c with
      | defineSite d => exact defineSite_meets d (hids d List.mem_cons_self) hF
      | emitRecord record => exact emitRecord_meets hgeneration hdistinct record hF
      | rebind k => exact op_lasts hF fun _ => trivial
    exact Spec.Triple.bind hcall fun _ => ih fun d hd => hids d (List.mem_cons_of_mem _ hd)

end Invariant

/-! ### Runs -/

/-- Before the first call: nothing is noted, and no generation is in the table. -/
structure HostState.Fresh (lg : κ → Logger τ) (s : HostState κ τ) : Prop where
  trace : s.trace = []
  generations : ∀ slot, s.generations slot = []
  dropped : ∀ k, (s.logs k).dropped < (lg k).counterWrap

section Results

variable [DecidableEq κ] [DecidableEq τ] {lg : κ → Logger τ} {start : HostState κ τ}
  {calls : τ → List (HostCall κ)}
  {p : Pool (ι := HostOp κ) HostOp.Answer τ (HostState κ τ) Unit}

omit [DecidableEq τ] in
theorem HostState.Fresh.inv (h : start.Fresh lg) : HostInv lg start start := by
  refine ⟨fun slot g hg => ?_, fun pre t k m post heq => ?_, fun k => ?_⟩
  · rw [h.generations slot] at hg
    cases hg
  · rw [h.trace] at heq
    cases pre <;> cases heq
  · rw [h.trace, List.countP_nil, Nat.add_zero, Nat.mod_eq_of_lt (h.dropped k)]

/-- The invariant holds in every pool the calls reach. -/
theorem inv_reachable (hgeneration : ∀ k, (lg k).segment.generation ≠ 0)
    (hdistinct : ∀ k k', (lg k).segment.generation = (lg k').segment.generation → k = k')
    (hids : ∀ t d, HostCall.defineSite d ∈ calls t → d.siteId ≠ 0) (hstart : start.Fresh lg)
    (hrun : Reachable (sem lg) ⟨start, fun t => thread lg (calls t)⟩ p) :
    HostInv lg start p.shared := by
  have hlasting : Lasting fun _ : HostState κ τ => True := fun _ _ _ _ => trivial
  refine (Spec.reachable (S := hostSpec lg start) (P := fun _ _ => True) (Q := fun _ _ _ => True)
    (p := ⟨start, fun t => thread lg (calls t)⟩) (fun _ _ _ _ _ _ => trivial) hstart.inv
    (fun _ => trivial) (fun t => ?_) hrun).1
  exact thread_meets hgeneration hdistinct hlasting (hids t)

/-- **Announce once.** For Loggers of distinct generations, in every interleaving of
definitions, emits and rebinds: a Message of a site other than zero is written behind a
definition of its site in the same segment, the drop counters count the drops, and a thread
that has returned did for each of its calls what `CallEffects` says, in order. -/
theorem announce_once (hgeneration : ∀ k, (lg k).segment.generation ≠ 0)
    (hdistinct : ∀ k k', (lg k).segment.generation = (lg k').segment.generation → k = k')
    (hids : ∀ t d, HostCall.defineSite d ∈ calls t → d.siteId ≠ 0) (hstart : start.Fresh lg)
    (hrun : Reachable (sem lg) ⟨start, fun t => thread lg (calls t)⟩ p) :
    (∀ pre t k m post, p.shared.trace = pre ++ .message t k m :: post → m.siteId ≠ 0 →
      ∃ t' a d, HostEvent.logged k (.committed t' a (.definition d)) ∈ pre ∧
        d.siteId = m.siteId) ∧
    (∀ k, (p.shared.logs k).dropped =
      ((start.logs k).dropped + p.shared.trace.countP (HostEvent.isDropOf k)) %
        (lg k).counterWrap) ∧
    ∀ t, p.prog t = .ret () → ∃ rows, List.Forall₂ (CallEffects t) (calls t) rows ∧
      p.shared.deeds t = rows.flatten := by
  have hinv := inv_reachable hgeneration hdistinct hids hstart hrun
  exact ⟨hinv.first, hinv.dropped, fun t hreturned => calls_accounted lg hstart.trace hrun hreturned⟩

end Results

/-! Two plugins' threads. One emits at the site zero and has read the site id of its slot, then
the other defines a site that is probed for in the same slot. -/

def zeroHost : Unit → Logger Bool := smallHost Bool 2 fun _ => 5

def zeroCalls : Bool → List (HostCall Unit)
  | false => [.emitRecord (some (plainRecord 0))]
  | true => [.defineSite (plainDefinition 2468 97)]

def zeroPool : Pool (ι := HostOp Unit) HostOp.Answer Bool (HostState Unit Bool) Unit :=
  ⟨smallStart Bool 2, fun t => thread zeroHost (zeroCalls t)⟩

/-- The load of the generation comes after the other's store. -/
def zeroRun : Pool (ι := HostOp Unit) HostOp.Answer Bool (HostState Unit Bool) Unit :=
  runOps zeroHost false 200 (runOps zeroHost true 200 (runOps zeroHost false 3 zeroPool))

theorem zeroRun_reachable : Reachable (sem zeroHost) zeroPool zeroRun :=
  ((runOps_reachable zeroHost false 3 zeroPool).trans
    (runOps_reachable zeroHost true 200 _)).trans (runOps_reachable zeroHost false 200 _)

theorem zeroStart_fresh : (smallStart Bool 2).Fresh zeroHost :=
  ⟨rfl, fun _ => rfl, fun _ => show 0 < 2 ^ 64 by decide⟩

theorem announce_once_two_plugins :
    (∀ pre t k m post, zeroRun.shared.trace = pre ++ .message t k m :: post → m.siteId ≠ 0 →
      ∃ t' a d, HostEvent.logged k (.committed t' a (.definition d)) ∈ pre ∧
        d.siteId = m.siteId) ∧
    (∀ k, (zeroRun.shared.logs k).dropped =
      (((smallStart Bool 2).logs k).dropped +
        zeroRun.shared.trace.countP (HostEvent.isDropOf k)) % (zeroHost k).counterWrap) ∧
    ∀ t, zeroRun.prog t = .ret () → ∃ rows, List.Forall₂ (CallEffects t) (zeroCalls t) rows ∧
      zeroRun.shared.deeds t = rows.flatten := by
  refine announce_once (fun _ => show (3 : UInt64) ≠ 0 by decide) (fun _ _ _ => rfl)
    (fun t d hd => ?_) zeroStart_fresh zeroRun_reachable
  cases t with
  | false =>
    rcases List.mem_singleton.mp hd with heq
    cases heq
  | true =>
    rcases List.mem_singleton.mp hd with heq
    cases heq
    show (2468 : UInt64) ≠ 0
    decide

/-- The event is a Message of the site. -/
def HostEvent.isMessageOf (siteId : UInt64) : HostEvent κ τ → Bool
  | .message _ _ m => m.siteId == siteId
  | _ => false

/-- The event is a committed definition of the site, by any Logger. -/
def HostEvent.isDefinitionOf (siteId : UInt64) : HostEvent κ τ → Bool
  | .logged _ (.committed _ _ (.definition d)) => d.siteId == siteId
  | _ => false

/-- The emit found its own id, zero, in the slot and then the generation of the definition that
took the slot: its Message is written, and no definition of the site zero ever was. -/
theorem announce_once_zero :
    ¬ ∀ pre t k m post, zeroRun.shared.trace = pre ++ .message t k m :: post →
      ∃ t' a d, HostEvent.logged k (.committed t' a (.definition d)) ∈ pre ∧
        d.siteId = m.siteId := by
  intro hall
  have hlast : (zeroRun.shared.trace.getLast?.any (HostEvent.isMessageOf 0)) = true := by
    decide +kernel
  have hnone : zeroRun.shared.trace.any (HostEvent.isDefinitionOf 0) = false := by
    decide +kernel
  obtain ⟨e, he, hmessage⟩ := (Option.any_eq_true _ _).mp hlast
  obtain ⟨pre, htrace⟩ := List.getLast?_eq_some_iff.mp he
  cases e with
  | message t k m =>
    have hzero : m.siteId = 0 := by simpa [HostEvent.isMessageOf] using hmessage
    obtain ⟨t', a, d, hmem, hd⟩ := hall pre t k m [] htrace
    have hin : HostEvent.logged k (.committed t' a (.definition d)) ∈ zeroRun.shared.trace := by
      rw [htrace]
      exact List.mem_append_left _ hmem
    have hnot := List.any_eq_false.mp hnone _ hin
    apply hnot
    show (d.siteId == 0) = true
    rw [hd, hzero]
    rfl
  | active | threshold | logged => cases hmessage

end Sub0Log.Abi
