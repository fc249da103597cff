import ZprUtils.RcuCslab.ReaderDrops

/-!
# Calls that share the slab

The calls that can be made while the slab is borrowed, in any number and in any order: those on the
shared slab and those on its readers. Only the drop of a reader changes the slab, and nothing of it
is visible: the slots of the generations that die go to the front of the free list.

## Main definitions

* `Op.shared` — the calls.
* `Frees` — slots are freed onto the free list.
* `Shares` — what a call that shares the slab can do.

## Main results

* `shares_of_step`, `shares_of_run` — one call, and a run of calls.
-/

namespace ZprUtils.RcuCslab

variable {α : Type} {s s' s'' : State α}

/-- The calls that can be made while the slab is borrowed: those on the shared slab and those on its
readers. -/
def Op.shared : Op α → Bool
  | .len | .allocated | .vacantKey | .get _ | .reader | .readerClone _ | .readerDrop _
  | .readerGet _ _ | .readerContainsKey _ _ | .readerIter _ | .readerNext _ _
  | .readerNextBack _ _ => true
  | _ => false

/-! ### Slots that are freed -/

/-- Every generation that has removals recorded in it stays alive. -/
def KeepsRemovals (s s' : State α) : Prop :=
  ∀ g gen, s.gens[g]? = some gen → gen.alive = true → gen.pendingRemoves ≠ [] → Alive s'.gens g

/-- The slots `freed` are put at the front of the free list. None are if all removals are kept. -/
structure Frees (s s' : State α) (freed : List Nat) : Prop where
  free : ∀ free, s.cslab.Inv free → s'.cslab.Inv (freed ++ free)
  nil_iff : freed = [] ↔ KeepsRemovals s s'

theorem KeepsRemovals.trans_iff (h : Unseen s s') (h' : Unseen s' s'') :
    KeepsRemovals s s'' ↔ KeepsRemovals s s' ∧ KeepsRemovals s' s'' := by
  constructor
  · intro hkeeps
    refine ⟨fun g gen hgen halive hne => h'.alive g (hkeeps g gen hgen halive hne),
      fun g gen' hgen' halive' hne' => ?_⟩
    obtain ⟨gen, hgen, halive⟩ := h.alive g ⟨gen', hgen', halive'⟩
    obtain ⟨gen'', hgen'', hpending⟩ := h.getElem?_gens hgen
    obtain rfl := Option.some.inj (hgen'.symm.trans hgen'')
    exact hkeeps g gen hgen halive (hpending ▸ hne')
  · rintro ⟨hkeeps, hkeeps'⟩ g gen hgen halive hne
    obtain ⟨gen', hgen', halive'⟩ := hkeeps g gen hgen halive hne
    obtain ⟨gen'', hgen'', hpending⟩ := h.getElem?_gens hgen
    obtain rfl := Option.some.inj (hgen'.symm.trans hgen'')
    exact hkeeps' g gen' hgen' halive' (hpending ▸ hne)

theorem Frees.trans {freed freed' : List Nat} (hu : Unseen s s') (hu' : Unseen s' s'')
    (h : Frees s s' freed) (h' : Frees s' s'' freed') : Frees s s'' (freed' ++ freed) := by
  refine ⟨fun free hinv => ?_, ?_⟩
  · rw [List.append_assoc]
    exact h'.free _ (h.free free hinv)
  · rw [List.append_eq_nil_iff, KeepsRemovals.trans_iff hu hu', ← h.nil_iff, ← h'.nil_iff, and_comm]

theorem Frees.of_cslab_eq (hcslab : s'.cslab = s.cslab)
    (halive : ∀ g, Alive s.gens g → Alive s'.gens g) : Frees s s' [] := by
  refine ⟨fun free hinv => ?_, iff_of_true rfl fun g gen hgen hgenalive _ => ?_⟩
  · rw [hcslab]
    exact hinv
  · exact halive g ⟨gen, hgen, hgenalive⟩

/-- **One release** frees the removals of the generation that dies, and puts them in front of the
free list in reverse order; every other release frees nothing. -/
theorem Release.frees {p q : Held × State α} (h : Release p q) (hi : Inv p.1 p.2)
    (hpoison : p.2.poisoned = false) : ∃ freed, Frees p.2 q.2 freed := by
  cases h with
  | writer | writerLast | storage | storageLast => exact ⟨[], .of_cslab_eq rfl fun _ h => h⟩
  | @gen s g gen hgen hmore =>
    refine ⟨[], .of_cslab_eq rfl fun j hj => ?_⟩
    rw [alive_iff_strongAt, strongAt_set hgen]
    split_ifs with hjg
    · simp only
      omega
    · exact alive_iff_strongAt.mp hj
  | leakGen _ _ hpoisoned => exact absurd (hpoison.symm.trans hpoisoned) nofun
  | @finalizeGen s g gen c items hgen hlast _ hlocked hfinalize =>
    have hgenalive : gen.alive = true := by simp [Gen.alive, hlast]
    obtain ⟨hnodup, hslots⟩ := hi.pending.of_gen hgen hgenalive
    refine ⟨gen.pendingRemoves.reverse, fun free hinv => ?_, ?_⟩
    · obtain ⟨items', c', hok, hinv', -⟩ := finalizeAll_eq_ok hinv hnodup hslots
      obtain ⟨-, rfl⟩ := Prod.mk.inj (Except.ok.inj (hfinalize.symm.trans hok))
      exact hinv'
    · rw [List.reverse_eq_nil_iff]
      have hstrong : ∀ j, strongAt (s.gens.set g { gen with strong := 0 }) j =
          if j = g then 0 else strongAt s.gens j := strongAt_set hgen
      constructor
      · intro hnil j gen' hgen' halive' hne
        have hjg : j ≠ g := by
          rintro rfl
          obtain rfl := Option.some.inj (hgen.symm.trans hgen')
          exact hne hnil
        rw [alive_iff_strongAt, hstrong, if_neg hjg]
        exact alive_iff_strongAt.mp ⟨gen', hgen', halive'⟩
      · intro hkeeps
        by_contra hne
        have halive := hkeeps g gen hgen hgenalive hne
        rw [alive_iff_strongAt, hstrong, if_pos rfl] at halive
        exact halive rfl

theorem Releases.frees {p q : Held × State α} (h : Releases p q) (hi : Inv p.1 p.2)
    (hpoison : p.2.poisoned = false) : ∃ freed, Frees p.2 q.2 freed := by
  induction h with
  | refl => exact ⟨[], .of_cslab_eq rfl fun _ h => h⟩
  | tail hrel hr ih =>
    obtain ⟨freed, hfreed⟩ := ih
    have hi' := (Releases.reach hrel).inv hi
    have hunseen := Releases.unseen hrel hi
    obtain ⟨freed', hfreed'⟩ := hr.frees hi' (hunseen.poisoned.trans hpoison)
    exact ⟨_, hfreed.trans hunseen (hr.unseen hi') hfreed'⟩

/-! ### One call -/

theorem liftFault_snd {β : Type} (r : Except RustFault β) :
    (Call.liftFault r s : Except Interrupt β × State α).2 = s := by
  cases r <;> rfl

/-- A look at the slab, with or without a poisoned mutex. -/
theorem withLock_read_snd {β : Type} {f : Cslab α → β} (husable : s.usable = true) :
    (withLock (onCslab fun c => .ok (f c, c)) s).2 = s := by
  rw [withLock_read (State.usable_iff.mp husable).2.1]

/-- **What a call that shares the slab can do.** -/
structure Shares (s s' : State α) : Prop where
  unseen : Unseen s s'
  frees : s.poisoned = false → ∃ freed, Frees s s' freed
  iterMut : s'.iterMut = s.iterMut
  entries : s'.entries = s.entries
  locked : s'.locked = s.locked

namespace Shares

theorem refl (s : State α) : Shares s s :=
  ⟨.of_cslab_eq rfl rfl (fun _ h => h) rfl rfl, fun _ => ⟨[], .of_cslab_eq rfl fun _ h => h⟩, rfl,
    rfl, rfl⟩

theorem trans (h : Shares s s') (h' : Shares s' s'') : Shares s s'' := by
  refine ⟨h.unseen.trans h'.unseen, fun hpoison => ?_, h'.iterMut.trans h.iterMut,
    h'.entries.trans h.entries, h'.locked.trans h.locked⟩
  obtain ⟨freed, hfreed⟩ := h.frees hpoison
  obtain ⟨freed', hfreed'⟩ := h'.frees (h.unseen.poisoned.trans hpoison)
  exact ⟨_, hfreed.trans h.unseen h'.unseen hfreed'⟩

theorem abort (h : Shares s s') : Shares s { s' with aborted := true } := by
  obtain ⟨⟨hview, huse, hslot, hpending, halive, hslab, hpoison, hcslab⟩, hfrees, him, hentries,
    hlocked⟩ := h
  refine ⟨⟨hview, huse, hslot, hpending, halive, hslab, hpoison, hcslab⟩, fun hp => ?_, him,
    hentries, hlocked⟩
  obtain ⟨freed, hfree, hnil⟩ := hfrees hp
  exact ⟨freed, hfree, hnil⟩

theorem of_settle {r : Except Interrupt (Ret α) × State α} {o : Except Interrupt (Ret α)}
    (hsettle : settle s r = (o, s')) (h : r.1 = .error .blocked ∨ Shares s r.2) : Shares s s' := by
  obtain rfl : (settle s r).2 = s' := by rw [hsettle]
  rcases settle_cases s r with ⟨-, hr⟩ | ⟨ho, hr⟩ | ⟨ho, -, hr⟩
  · rw [hr]
    exact refl s
  · rw [hr]
    exact (h.resolve_left (by simp [ho])).abort
  · rw [hr]
    exact h.resolve_left ho

/-- Handles of readers are replaced. -/
theorem of_readers (readers : List (Option Reader)) : Shares s { s with readers } :=
  ⟨.of_cslab_eq rfl rfl (fun _ h => h) rfl rfl, fun _ => ⟨[], .of_cslab_eq rfl fun _ h => h⟩, rfl,
    rfl, rfl⟩

theorem of_addReader {g : Nat} (halive : Alive s.gens g) : Shares s (addReader g s).2 := by
  obtain ⟨gen, hgen, hgenalive⟩ := halive
  have hgens : (addReader g s).2.gens = s.gens.set g { gen with strong := gen.strong + 1 } :=
    modify_eq_set_of_getElem? hgen _
  have hiff : ∀ j, Alive (addReader g s).2.gens j ↔ Alive s.gens j := by
    intro j
    rw [hgens, alive_iff_strongAt, alive_iff_strongAt, strongAt_set hgen]
    split_ifs with hj
    · subst hj
      rw [strongAt_of_getElem? hgen]
      simp only [Gen.alive, bne_iff_ne] at hgenalive
      simpa using hgenalive
    · rfl
  have hpending : (addReader g s).2.gens.map (·.pendingRemoves) =
      s.gens.map (·.pendingRemoves) := by
    rw [hgens, List.map_set]
    exact set_self_of_getElem? (by rw [List.getElem?_map, hgen]; rfl)
  exact ⟨.of_cslab_eq rfl hpending (fun j hj => (hiff j).mp hj) rfl rfl,
    fun _ => ⟨[], .of_cslab_eq rfl fun j hj => (hiff j).mpr hj⟩, rfl, rfl, rfl⟩

theorem of_readerAdvance {k j : Nat} {r : Reader}
    {found : Except RustFault (Option (Nat × α) × Iter)} :
    Shares s (readerAdvance k j r found s).2 := by
  cases found with
  | ok p => exact of_readers _
  | error fault => exact refl s

theorem of_releases {held : Held} {t : State α} (hi : Inv held s')
    (hrel : Releases (held, s') ({}, t)) : Shares s' t := by
  obtain ⟨hlocked, -, -, him, hentries, -⟩ := hrel.frame
  exact ⟨hrel.unseen hi, fun hpoison => hrel.frees hi hpoison, him, hentries, hlocked⟩

end Shares

/-- **A call that shares the slab.** It needs a shared reference to the slab, or a handle: it can
drop generations, but it can neither insert nor mark, and it borrows nothing. -/
theorem shares_of_step {op : Op α} {o : Except Interrupt (Ret α)} (hi : Inv {} s)
    (hshared : op.shared = true) (hstep : step s op = some (o, s')) : Shares s s' := by
  obtain ⟨m, hcall, hsettle⟩ := step_eq_some hstep
  have of_map : ∀ {β : Type} {f : β → Ret α} {m : Call (State α) β},
      settle s ((f <$> m) s) = (o, s') → Shares s (m s).2 → Shares s s' :=
    fun hsettle h => .of_settle hsettle (Or.inr (by rwa [Call.map_snd]))
  cases allowed_of_call hcall with
  | len husable | allocated husable | vacantKey husable =>
    refine of_map hsettle ?_
    exact (withLock_read_snd husable).symm ▸ .refl s
  | get =>
    refine of_map hsettle ?_
    rw [get, Call.get_bind_apply, liftFault_snd]
    exact .refl s
  | reader husable =>
    obtain ⟨slab, hslab⟩ := Option.isSome_iff_exists.mp (State.usable_iff.mp husable).1
    refine of_map hsettle ?_
    have hreader : (reader s).2 = (addReader slab.curGen s).2 := by
      simp only [reader, Call.get_bind_apply, hslab, Call.bind_apply_ok addReader_eq,
        Call.pure_apply, addReader_eq]
    rw [hreader]
    exact .of_addReader (hi.refs.alive_of_slab hslab)
  | readerClone hh => exact of_map hsettle (.of_addReader (hi.refs.alive_of_reader hh))
  | @readerDrop k r hh =>
    obtain ⟨o', t, hdrop, ⟨-, rfl⟩ | ⟨hrel, -⟩⟩ := releases_readerDrop hi hh
    · exact .of_settle hsettle (Or.inl (by rw [Call.map_apply_error hdrop]))
    · refine of_map hsettle ?_
      rw [hdrop]
      exact (Shares.of_readers _).trans (.of_releases ((Action.dropReader hh).inv hi) hrel)
  | readerGet =>
    refine of_map hsettle ?_
    rw [readerGet, Call.get_bind_apply, liftFault_snd]
    exact .refl s
  | readerContainsKey =>
    refine of_map hsettle ?_
    rw [readerContainsKey, Call.get_bind_apply, liftFault_snd]
    exact .refl s
  | readerIter => exact of_map hsettle (.of_readers _)
  | readerNext | readerNextBack => exact of_map hsettle .of_readerAdvance
  | _ => simp [Op.shared] at hshared

/-- Without a poisoned mutex and while no vacant entry is alive such a call returns. -/
theorem ok_of_shared {op : Op α} {o : Except Interrupt (Ret α)} (hi : Inv {} s)
    (hlocked : s.locked = false) (hpoison : s.poisoned = false) (hshared : op.shared = true)
    (hstep : step s op = some (o, s')) : ∃ ret, o = .ok ret := by
  obtain ⟨m, hcall, hsettle⟩ := step_eq_some hstep
  obtain ⟨free, hinv⟩ := hi.pending.cslab
  have of_map : ∀ {β : Type} {f : β → Ret α} {m : Call (State α) β} {b : β} {t : State α},
      settle s ((f <$> m) s) = (o, s') → m s = (.ok b, t) → ∃ ret, o = .ok ret :=
    fun hsettle hm => ⟨_, (settle_map_ok hsettle hm).1⟩
  have of_read : ∀ {β : Type} {f : β → Ret α} {g : Cslab α → β},
      settle s ((f <$> withLock (onCslab fun c => .ok (g c, c))) s) = (o, s') →
        ∃ ret, o = .ok ret := by
    intro β f g hsettle
    have hread := withLock_read (f := g) hlocked
    rw [hpoison, if_neg Bool.false_ne_true] at hread
    exact of_map hsettle hread
  have of_advance : ∀ {k j : Nat} {r : Reader} {it : Iter}
      {found : Except RustFault (Option (Nat × α) × Iter)}, Finds s it found →
      settle s ((Ret.indexed <$> readerAdvance k j r found) s) = (o, s') → ∃ ret, o = .ok ret := by
    rintro k j r it found (⟨it', rfl, -⟩ | ⟨i, x, it', rfl, -⟩) hsettle
    · exact of_map hsettle rfl
    · exact of_map hsettle rfl
  cases allowed_of_call hcall with
  | len | allocated | vacantKey => exact of_read hsettle
  | get => exact ⟨_, step_get hi hstep⟩
  | reader husable =>
    obtain ⟨slab, hslab⟩ := Option.isSome_iff_exists.mp (State.usable_iff.mp husable).1
    obtain ⟨t, hreader, -⟩ := reach_reader husable hslab
    exact of_map hsettle hreader
  | readerClone => exact of_map hsettle addReader_eq
  | readerDrop hh =>
    obtain ⟨o', t, hdrop, ⟨hblocked, -⟩ | ⟨-, hends⟩⟩ := releases_readerDrop hi hh
    · exact absurd (hlocked.symm.trans hblocked) nofun
    · rw [hends.eq_ok hpoison] at hdrop
      exact of_map hsettle hdrop
  | readerGet => exact ⟨_, (step_readerGet hi hstep).1⟩
  | readerContainsKey => exact ⟨_, (step_readerContainsKey hi hstep).1⟩
  | readerIter => exact of_map hsettle rfl
  | @readerNext _ _ r it hh hit =>
    exact of_advance (finds_next hinv (hi.borrows.reader_iter _ r hh it (List.mem_of_getElem? hit)))
      hsettle
  | @readerNextBack _ _ r it hh hit =>
    exact of_advance
      (finds_nextBack hinv (hi.borrows.reader_iter _ r hh it (List.mem_of_getElem? hit))) hsettle
  | _ => exact absurd hshared nofun

/-- **A run of calls that share the slab**, by induction on its steps. -/
theorem shares_of_run {es : List (Op α × Except Interrupt (Ret α))} (hi : Inv {} s)
    (hshared : ∀ e ∈ es, e.1.shared = true) (hrun : Run s es s') : Inv {} s' ∧ Shares s s' := by
  refine Steps.history (P := fun es s' =>
    (∀ e ∈ es, e.1.shared = true) → Inv {} s' ∧ Shares s s')
    ?_ hrun (fun _ => ⟨hi, .refl s⟩) hshared
  intro es s₁ e s₂ ih hstep hshared
  rw [List.forall_mem_append, List.forall_mem_singleton] at hshared
  obtain ⟨hi₁, hshares⟩ := ih hshared.1
  exact ⟨step_inv hi₁ hstep, hshares.trans (shares_of_step hi₁ hshared.2 hstep)⟩

end ZprUtils.RcuCslab
