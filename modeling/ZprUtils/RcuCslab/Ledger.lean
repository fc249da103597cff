import ZprUtils.RcuCslab.State

/-!
# The ledger of items

An abstract view of the RCU slab, without reference counts and handles: the slots, for each
generation the removals recorded in it and whether it is alive, and the log. `Ledger.Next` says what
can happen: an item is inserted into a free slot, a visible item is marked in a generation that is
alive, the oldest generation that is alive finalizes its removals, and the storage is dropped when
no generation is alive. A panic of the holder of the mutex poisons it, and from then on generations
are dropped without finalizing their removals.

## Main definitions

* `Ledger`, `Ledger.Next` — the abstract states and transitions.
* `Ledger.Records`, `Ledger.GenLog` — invariants of the records of the generations and of the events
  of each generation.

## Main results

* `Ledger.Next.records`, `Ledger.Next.genLog` — every transition keeps the two invariants.
-/

namespace ZprUtils.RcuCslab

variable {α : Type}

/-- The removals recorded in a generation. -/
structure Record where
  pending : List Nat
  alive : Bool
  deriving DecidableEq, Repr

/-- The slots, the generations and the log. -/
structure Ledger (α : Type) where
  slot : Nat → Slot α
  records : List Record
  poisoned : Bool
  /-- The storage has been dropped. -/
  dropped : Bool
  log : List (Event α)

/-- Generation `g` is alive. -/
def AliveIn (rs : List Record) (g : Nat) : Prop := ∃ r, rs[g]? = some r ∧ r.alive = true

/-- The removal of `i` is recorded in generation `g`, which is alive. -/
def RecordedIn (rs : List Record) (g i : Nat) : Prop :=
  ∃ r, rs[g]? = some r ∧ r.alive = true ∧ i ∈ r.pending

section

variable {rs : List Record} {r : Record} {g g' i j : Nat}

theorem getElem?_set_of_getElem? {r' : Record} (hr : rs[g]? = some r) :
    (rs.set g r')[g']? = if g' = g then some r' else rs[g']? := by
  have hlt := (List.getElem?_eq_some_iff.mp hr).1
  rw [List.getElem?_set]
  by_cases hg : g = g'
  · subst hg
    simp [hlt]
  · simp [hg, Ne.symm hg]

theorem getElem?_push {r' : Record} :
    (rs ++ [r'])[g]? = if g = rs.length then some r' else rs[g]? := by
  rcases Nat.lt_trichotomy g rs.length with hg | rfl | hg
  · rw [List.getElem?_append_left hg, if_neg (Nat.ne_of_lt hg)]
  · simp
  · rw [if_neg (Nat.ne_of_gt hg), List.getElem?_eq_none (Nat.le_of_lt hg),
      List.getElem?_eq_none (by simp; omega)]

theorem recordedIn_mark (hr : rs[g]? = some r) (halive : r.alive = true) :
    RecordedIn (rs.set g { r with pending := r.pending ++ [i] }) g' j ↔
      RecordedIn rs g' j ∨ g' = g ∧ j = i := by
  simp only [RecordedIn, getElem?_set_of_getElem? hr]
  by_cases hg : g' = g
  · subst hg
    simp [hr, halive]
  · simp [hg]

theorem recordedIn_push : RecordedIn (rs ++ [⟨[], true⟩]) g j ↔ RecordedIn rs g j := by
  simp only [RecordedIn, getElem?_push]
  by_cases hg : g = rs.length
  · subst hg
    simp
  · simp [hg]

theorem recordedIn_kill (hr : rs[g]? = some r) :
    RecordedIn (rs.set g { r with alive := false }) g' j ↔ g' ≠ g ∧ RecordedIn rs g' j := by
  simp only [RecordedIn, getElem?_set_of_getElem? hr]
  by_cases hg : g' = g
  · simp [hg]
  · simp [hg]

theorem aliveIn_mark (hr : rs[g]? = some r) {pending : List Nat} :
    AliveIn (rs.set g { r with pending }) g' ↔ AliveIn rs g' := by
  simp only [AliveIn, getElem?_set_of_getElem? hr]
  by_cases hg : g' = g
  · subst hg
    simp [hr]
  · simp [hg]

theorem aliveIn_push : AliveIn (rs ++ [⟨[], true⟩]) g ↔ AliveIn rs g ∨ g = rs.length := by
  simp only [AliveIn, getElem?_push]
  by_cases hg : g = rs.length
  · simp [hg]
  · simp [hg]

theorem aliveIn_kill (hr : rs[g]? = some r) :
    AliveIn (rs.set g { r with alive := false }) g' ↔ g' ≠ g ∧ AliveIn rs g' := by
  simp only [AliveIn, getElem?_set_of_getElem? hr]
  by_cases hg : g' = g
  · simp [hg]
  · simp [hg]

end

/-! ### Events -/

/-- The index of a removal marked in generation `g`. -/
def markedIn (g : Nat) : Event α → Option Nat
  | .marked g' i => if g' = g then some i else none
  | _ => none

/-- The index of a removal finalized by generation `g`. -/
def finalizedIn (g : Nat) : Event α → Option Nat
  | .finalized g' i _ => if g' = g then some i else none
  | _ => none

/-- The generation that finalized a removal. -/
def finalizedBy : Event α → Option Nat
  | .finalized g _ _ => some g
  | _ => none

/-- The events since the last new generation. -/
def sinceAdvance (log : List (Event α)) : List (Event α) :=
  log.foldl (fun es e => match e with
    | .advanced _ => []
    | e => es ++ [e]) []

/-- An event that is not about a generation. -/
def Event.quiet : Event α → Bool
  | .inserted .. | .storageDropped | .destroyed .. => true
  | .marked .. | .advanced _ | .finalized .. => false

/-- An event that creates no generation. -/
def Event.staysIn : Event α → Bool
  | .advanced _ => false
  | _ => true

theorem sinceAdvance_append {log es : List (Event α)} (hes : ∀ e ∈ es, e.staysIn = true) :
    sinceAdvance (log ++ es) = sinceAdvance log ++ es := by
  induction es using List.reverseRecOn with
  | nil => simp
  | append_singleton es e ih =>
    have he := hes e (by simp)
    have hprev := ih fun e' he' => hes e' (by simp [he'])
    rw [sinceAdvance] at hprev ⊢
    rw [← List.append_assoc, List.foldl_append, hprev]
    cases e <;> simp_all [Event.staysIn]

theorem sinceAdvance_advanced {log : List (Event α)} {g : Nat} :
    sinceAdvance (log ++ [.advanced g]) = [] := by
  simp [sinceAdvance, List.foldl_append]

namespace Ledger

variable {l l' : Ledger α}

/-- What can happen to the items. -/
inductive Next : Ledger α → Ledger α → Prop
  | insert {l : Ledger α} {i : Nat} {x : α} (hfree : l.slot i = .free)
      (hdropped : l.dropped = false) :
      Next l { l with
        slot := Function.update l.slot i (.live x)
        log := l.log ++ [.inserted i x] }
  | reject {l : Ledger α} {x : α} {locked : Bool} :
      Next l { l with log := l.log ++ [.destroyed .rejected x locked] }
  | mark {l : Ledger α} {g i : Nat} {r : Record} {x : α} (hlive : l.slot i = .live x)
      (hr : l.records[g]? = some r) (halive : r.alive = true) (hdropped : l.dropped = false) :
      Next l { l with
        slot := Function.update l.slot i (.pending x)
        records := l.records.set g { r with pending := r.pending ++ [i] }
        log := l.log ++ [.marked g i] }
  | advance {l : Ledger α} (hdropped : l.dropped = false) :
      Next l { l with
        records := l.records ++ [⟨[], true⟩]
        log := l.log ++ [.advanced l.records.length] }
  | finalize {l : Ledger α} {g : Nat} {r : Record} {items : List α} (hr : l.records[g]? = some r)
      (halive : r.alive = true) (hfirst : ∀ j < g, ¬AliveIn l.records j)
      (hpoison : l.poisoned = false)
      (hlen : items.length = r.pending.length)
      (hitems : ∀ p ∈ r.pending.zip items, l.slot p.1 = .pending p.2) :
      Next l { l with
        slot := fun j => if j ∈ r.pending then .free else l.slot j
        records := l.records.set g { r with alive := false }
        log := l.log ++ (r.pending.zip items).map (fun p => .finalized g p.1 p.2) ++
          (r.pending.zip items).map (fun p => .destroyed (.gen g p.1) p.2 false) }
  | leak {l : Ledger α} {g : Nat} {r : Record} (hr : l.records[g]? = some r)
      (hfirst : ∀ j < g, ¬AliveIn l.records j) (hpoison : l.poisoned = true) :
      Next l { l with records := l.records.set g { r with alive := false } }
  | dropStorage {l : Ledger α} {items : List (Nat × α)} (hdropped : l.dropped = false)
      (hdead : ∀ g, ¬AliveIn l.records g) (hnodup : (items.map Prod.fst).Nodup)
      (hitems : ∀ p, p ∈ items ↔ l.slot p.1 = .live p.2) :
      Next l { l with
        dropped := true
        log := l.log ++ .storageDropped ::
          items.map fun p => .destroyed (.storage p.1) p.2 false }
  | poison {l : Ledger α} : Next l { l with poisoned := true }

/-- The ledger of a new slab. -/
def init : Ledger α := ⟨fun _ => .free, [⟨[], true⟩], false, false, []⟩

/-! ### Records -/

/-- **The records of the generations that are alive** are pending slots, each recorded once, and
the generations that are alive are the last ones. -/
structure Records (l : Ledger α) : Prop where
  nodup : ∀ (g : Nat) (r : Record), l.records[g]? = some r → r.pending.Nodup
  slot : ∀ g i, RecordedIn l.records g i → ∃ x, l.slot i = .pending x
  unique : ∀ g g' i, RecordedIn l.records g i → RecordedIn l.records g' i → g = g'
  last : ∀ g g', AliveIn l.records g → g ≤ g' → g' < l.records.length → AliveIn l.records g'
  dropped : l.dropped = true → ∀ g, ¬AliveIn l.records g

theorem records_init : Records (init : Ledger α) := by
  have hrecord : ∀ (g : Nat) (r : Record),
      (init : Ledger α).records[g]? = some r → r = ⟨[], true⟩ := by
    intro g r hr
    have hmem := List.mem_of_getElem? hr
    simpa [init] using hmem
  have hnone : ∀ g i, ¬RecordedIn (init : Ledger α).records g i := by
    rintro g i ⟨r, hr, -, hi⟩
    rw [hrecord g r hr] at hi
    exact absurd hi List.not_mem_nil
  refine ⟨fun g r hr => ?_, fun g i h => absurd h (hnone g i), fun g g' i h => absurd h (hnone g i),
    fun g g' _ _ hlt => ?_, fun h => absurd h (by simp [init])⟩
  · rw [hrecord g r hr]
    exact List.nodup_nil
  · obtain rfl : g' = 0 := by simpa [init] using hlt
    exact ⟨⟨[], true⟩, rfl, rfl⟩

/-- The drop of the oldest generation that is alive. -/
theorem Records.kill {g : Nat} {r : Record} (hr : Records l) (hg : l.records[g]? = some r)
    (hfirst : ∀ j < g, ¬AliveIn l.records j)
    (hrecords : l'.records = l.records.set g { r with alive := false })
    (hslot : ∀ g' j, g' ≠ g → RecordedIn l.records g' j → l'.slot j = l.slot j)
    (hdropped : l'.dropped = l.dropped) : Records l' := by
  refine ⟨fun g' r' hg' => ?_, fun g' j hj => ?_, fun g₁ g₂ j h₁ h₂ => ?_,
    fun g₁ g₂ h₁ hle hlt => ?_, fun hdrop g' hg' => ?_⟩
  · rw [hrecords, getElem?_set_of_getElem? hg] at hg'
    split_ifs at hg'
    · obtain rfl := Option.some.inj hg'
      exact hr.nodup g r hg
    · exact hr.nodup g' r' hg'
  · rw [hrecords, recordedIn_kill hg] at hj
    rw [hslot g' j hj.1 hj.2]
    exact hr.slot g' j hj.2
  · rw [hrecords, recordedIn_kill hg] at h₁ h₂
    exact hr.unique g₁ g₂ j h₁.2 h₂.2
  · rw [hrecords, List.length_set] at hlt
    rw [hrecords, aliveIn_kill hg] at h₁ ⊢
    refine ⟨?_, hr.last g₁ g₂ h₁.2 hle hlt⟩
    rintro rfl
    exact hfirst g₁ (lt_of_le_of_ne hle h₁.1) h₁.2
  · rw [hrecords, aliveIn_kill hg] at hg'
    exact hr.dropped (hdropped ▸ hdrop) g' hg'.2

theorem Next.records (h : Next l l') (hr : Records l) : Records l' := by
  cases h with
  | @insert i x hfree hdropped =>
    refine ⟨hr.nodup, fun g j hj => ?_, hr.unique, hr.last, hr.dropped⟩
    obtain ⟨y, hy⟩ := hr.slot g j hj
    have hne : j ≠ i := fun h => absurd (hfree.symm.trans (h ▸ hy)) (by simp)
    exact ⟨y, (Function.update_of_ne hne _ _).trans hy⟩
  | reject | poison => exact ⟨hr.nodup, hr.slot, hr.unique, hr.last, hr.dropped⟩
  | @mark g i r x hlive hg halive hdropped =>
    have hnew : ∀ g', ¬RecordedIn l.records g' i := by
      intro g' hrec
      obtain ⟨y, hy⟩ := hr.slot g' i hrec
      exact absurd (hlive.symm.trans hy) (by simp)
    refine ⟨fun g' r' hg' => ?_, fun g' j hj => ?_, fun g₁ g₂ j h₁ h₂ => ?_, ?_, ?_⟩
    · rw [getElem?_set_of_getElem? hg] at hg'
      split_ifs at hg'
      · obtain rfl := Option.some.inj hg'
        have hnotin : i ∉ r.pending := fun hi => hnew g ⟨r, hg, halive, hi⟩
        exact List.Nodup.append (hr.nodup g r hg) (List.nodup_singleton i)
          (List.disjoint_singleton.mpr hnotin)
      · exact hr.nodup g' r' hg'
    · rcases (recordedIn_mark hg halive).mp hj with hrec | ⟨-, rfl⟩
      · obtain ⟨y, hy⟩ := hr.slot g' j hrec
        have hne : j ≠ i := fun h => hnew g' (h ▸ hrec)
        exact ⟨y, (Function.update_of_ne hne _ _).trans hy⟩
      · exact ⟨x, Function.update_self ..⟩
    · rcases (recordedIn_mark hg halive).mp h₁ with h₁' | ⟨rfl, hj⟩ <;>
        rcases (recordedIn_mark hg halive).mp h₂ with h₂' | ⟨rfl, hj'⟩
      · exact hr.unique g₁ g₂ j h₁' h₂'
      · exact absurd (hj' ▸ h₁') (hnew g₁)
      · exact absurd (hj ▸ h₂') (hnew g₂)
      · rfl
    · simp only [aliveIn_mark hg, List.length_set]
      exact hr.last
    · simp only [aliveIn_mark hg]
      exact hr.dropped
  | advance hdropped =>
    refine ⟨fun g r hg => ?_, fun g j hj => hr.slot g j (recordedIn_push.mp hj),
      fun g g' j h h' => hr.unique g g' j (recordedIn_push.mp h) (recordedIn_push.mp h'),
      fun g g' hg hle hlt => ?_, fun hdrop => absurd (hdropped.symm.trans hdrop) (by simp)⟩
    · rw [getElem?_push] at hg
      split_ifs at hg
      · obtain rfl := Option.some.inj hg
        exact List.nodup_nil
      · exact hr.nodup g r hg
    · rw [List.length_append, List.length_singleton] at hlt
      rw [aliveIn_push] at hg ⊢
      rcases hg with hg | rfl
      · rcases Nat.lt_or_eq_of_le (Nat.lt_succ_iff.mp hlt) with hlt | rfl
        · exact Or.inl (hr.last g g' hg hle hlt)
        · exact Or.inr rfl
      · exact Or.inr (by omega)
  | @finalize g r items hg halive hfirst hpoison hlen hitems =>
    refine hr.kill hg hfirst rfl (fun g' j hne hj => if_neg fun hmem => hne ?_) rfl
    exact hr.unique g' g j hj ⟨r, hg, halive, hmem⟩
  | leak hg hfirst hpoison => exact hr.kill hg hfirst rfl (fun _ _ _ _ => rfl) rfl
  | dropStorage hdropped hdead hnodup hitems =>
    exact ⟨hr.nodup, hr.slot, hr.unique, hr.last, fun _ => hdead⟩

/-! ### The events of a generation -/

/-- The removals recorded in generation `g`. -/
def pendingOf (rs : List Record) (g : Nat) : List Nat := (rs[g]?.map (·.pending)).getD []

/-- The removals that generation `g` has finalized. -/
def finalizedOf (rs : List Record) (g : Nat) : List Nat :=
  (rs[g]?.map fun r => if r.alive then [] else r.pending).getD []

/-- **The events of each generation.** The marks of a generation are the removals recorded in it,
those of the last one were all made since it was created; a generation that is dropped finalizes its
removals, in order, unless the mutex is poisoned; and older generations finalize theirs first. -/
structure GenLog (l : Ledger α) : Prop where
  marked : ∀ g, l.log.filterMap (markedIn g) = pendingOf l.records g
  finalized : l.poisoned = false → ∀ g, l.log.filterMap (finalizedIn g) = finalizedOf l.records g
  dead : ∀ g ∈ l.log.filterMap finalizedBy, g < l.records.length ∧ ¬AliveIn l.records g
  order : (l.log.filterMap finalizedBy).Pairwise (· ≤ ·)
  recent : (sinceAdvance l.log).filterMap (markedIn (l.records.length - 1)) =
    pendingOf l.records (l.records.length - 1)

theorem genLog_init : GenLog (init : Ledger α) := by
  refine ⟨fun g => ?_, fun _ g => ?_, by simp [init], by simp [init], rfl⟩
  · cases g <;> rfl
  · cases g <;> rfl

section

variable {rs : List Record} {r : Record} {g : Nat}

theorem pendingOf_mark {i : Nat} (hr : rs[g]? = some r) (g' : Nat) :
    pendingOf (rs.set g { r with pending := r.pending ++ [i] }) g' =
      pendingOf rs g' ++ if g' = g then [i] else [] := by
  rw [pendingOf, getElem?_set_of_getElem? hr]
  by_cases hg : g' = g
  · subst hg
    simp [pendingOf, hr]
  · simp [hg, pendingOf]

theorem pendingOf_push (g : Nat) : pendingOf (rs ++ [⟨[], true⟩]) g = pendingOf rs g := by
  rw [pendingOf, getElem?_push]
  split_ifs with hg
  · simp [hg, pendingOf]
  · rfl

theorem pendingOf_kill (hr : rs[g]? = some r) :
    pendingOf (rs.set g { r with alive := false }) = pendingOf rs := by
  funext g'
  rw [pendingOf, getElem?_set_of_getElem? hr]
  by_cases hg : g' = g
  · subst hg
    simp [pendingOf, hr]
  · simp [hg, pendingOf]

theorem finalizedOf_mark {pending : List Nat} (hr : rs[g]? = some r) (halive : r.alive = true) :
    finalizedOf (rs.set g { r with pending }) = finalizedOf rs := by
  funext g'
  rw [finalizedOf, getElem?_set_of_getElem? hr]
  by_cases hg : g' = g
  · subst hg
    simp [finalizedOf, hr, halive]
  · simp [hg, finalizedOf]

theorem finalizedOf_push (g : Nat) : finalizedOf (rs ++ [⟨[], true⟩]) g = finalizedOf rs g := by
  rw [finalizedOf, getElem?_push]
  split_ifs with hg
  · simp [hg, finalizedOf]
  · rfl

theorem finalizedOf_kill (hr : rs[g]? = some r) (halive : r.alive = true) (g' : Nat) :
    finalizedOf (rs.set g { r with alive := false }) g' =
      finalizedOf rs g' ++ if g' = g then r.pending else [] := by
  rw [finalizedOf, getElem?_set_of_getElem? hr]
  by_cases hg : g' = g
  · subst hg
    simp [finalizedOf, hr, halive]
  · simp [hg, finalizedOf]

end

/-- Events that are not about a generation. -/
theorem filterMap_eq_nil_of_quiet {β : Type} {es : List (Event α)} {f : Event α → Option β}
    (hes : ∀ e ∈ es, e.quiet = true) (hf : ∀ e : Event α, e.quiet = true → f e = none) :
    es.filterMap f = [] := by
  rw [List.filterMap_eq_nil_iff]
  exact fun e he => hf e (hes e he)

theorem quiet_map {β : Type} {bs : List β} {f : β → Event α} (hf : ∀ b, (f b).quiet = true) :
    ∀ e ∈ bs.map f, e.quiet = true := by
  intro e he
  obtain ⟨b, -, rfl⟩ := List.mem_map.mp he
  exact hf b

theorem markedIn_of_quiet {g : Nat} {e : Event α} (he : e.quiet = true) : markedIn g e = none := by
  cases e <;> simp_all [Event.quiet, markedIn]

theorem finalizedIn_of_quiet {g : Nat} {e : Event α} (he : e.quiet = true) :
    finalizedIn g e = none := by
  cases e <;> simp_all [Event.quiet, finalizedIn]

theorem finalizedBy_of_quiet {e : Event α} (he : e.quiet = true) : finalizedBy e = none := by
  cases e <;> simp_all [Event.quiet, finalizedBy]

theorem staysIn_of_quiet {e : Event α} (he : e.quiet = true) : e.staysIn = true := by
  cases e <;> simp_all [Event.quiet, Event.staysIn]

/-- A change of the log by events that are not about a generation. -/
theorem GenLog.quiet {es : List (Event α)} (hl : GenLog l) (hrecords : l'.records = l.records)
    (hpoison : l'.poisoned = false → l.poisoned = false) (hlog : l'.log = l.log ++ es)
    (hes : ∀ e ∈ es, e.quiet = true) : GenLog l' := by
  have hmarked : ∀ g, es.filterMap (markedIn g) = [] := fun g =>
    filterMap_eq_nil_of_quiet hes fun _ => markedIn_of_quiet
  have hfinalized : ∀ g, es.filterMap (finalizedIn g) = [] := fun g =>
    filterMap_eq_nil_of_quiet hes fun _ => finalizedIn_of_quiet
  have hby : es.filterMap finalizedBy = [] :=
    filterMap_eq_nil_of_quiet hes fun _ => finalizedBy_of_quiet
  refine ⟨fun g => ?_, fun h g => ?_, ?_, ?_, ?_⟩
  · rw [hlog, List.filterMap_append, hmarked, List.append_nil, hrecords, hl.marked]
  · rw [hlog, List.filterMap_append, hfinalized, List.append_nil, hrecords,
      hl.finalized (hpoison h)]
  · rw [hlog, List.filterMap_append, hby, List.append_nil, hrecords]
    exact hl.dead
  · rw [hlog, List.filterMap_append, hby, List.append_nil]
    exact hl.order
  · rw [hlog, sinceAdvance_append fun e he => staysIn_of_quiet (hes e he), List.filterMap_append,
      hmarked, List.append_nil, hrecords, hl.recent]

theorem GenLog.mark {g i : Nat} {r : Record} (hl : GenLog l) (hr : l.records[g]? = some r)
    (halive : r.alive = true)
    (hrecords : l'.records = l.records.set g { r with pending := r.pending ++ [i] })
    (hpoison : l'.poisoned = l.poisoned) (hlog : l'.log = l.log ++ [.marked g i]) : GenLog l' := by
  have hmarked : ∀ g', [(Event.marked g i : Event α)].filterMap (markedIn g') =
      if g' = g then [i] else [] := by
    intro g'
    by_cases hg : g' = g
    · simp [markedIn, hg]
    · simp [markedIn, hg, Ne.symm hg]
  have hby : [(Event.marked g i : Event α)].filterMap finalizedBy = [] := rfl
  refine ⟨fun g' => ?_, fun h g' => ?_, ?_, ?_, ?_⟩
  · rw [hlog, List.filterMap_append, hmarked, hrecords, pendingOf_mark hr, hl.marked]
  · rw [hlog, List.filterMap_append, hrecords, finalizedOf_mark hr halive,
      hl.finalized (hpoison ▸ h)]
    exact List.append_nil _
  · rw [hlog, List.filterMap_append, hby, List.append_nil, hrecords, List.length_set]
    simp only [aliveIn_mark hr]
    exact hl.dead
  · rw [hlog, List.filterMap_append, hby, List.append_nil]
    exact hl.order
  · rw [hlog, sinceAdvance_append (by simp [Event.staysIn]), List.filterMap_append, hmarked,
      hrecords, List.length_set, pendingOf_mark hr, hl.recent]

theorem GenLog.advance (hl : GenLog l) (hrecords : l'.records = l.records ++ [⟨[], true⟩])
    (hpoison : l'.poisoned = l.poisoned)
    (hlog : l'.log = l.log ++ [.advanced l.records.length]) : GenLog l' := by
  have hby : [(Event.advanced l.records.length : Event α)].filterMap finalizedBy = [] := rfl
  refine ⟨fun g => ?_, fun h g => ?_, fun g hg => ?_, ?_, ?_⟩
  · rw [hlog, List.filterMap_append, hrecords, pendingOf_push, hl.marked]
    exact List.append_nil _
  · rw [hlog, List.filterMap_append, hrecords, finalizedOf_push, hl.finalized (hpoison ▸ h)]
    exact List.append_nil _
  · rw [hlog, List.filterMap_append, hby, List.append_nil] at hg
    obtain ⟨hlt, hdead⟩ := hl.dead g hg
    rw [hrecords, List.length_append, aliveIn_push]
    exact ⟨by omega, fun h => h.elim hdead fun h => by omega⟩
  · rw [hlog, List.filterMap_append, hby, List.append_nil]
    exact hl.order
  · rw [hlog, sinceAdvance_advanced, hrecords]
    simp [pendingOf]

/-- The oldest generation that is alive finalizes its removals after all older ones. -/
theorem GenLog.finalize {g : Nat} {r : Record} {items : List α} (hl : GenLog l) (hr : Records l)
    (hg : l.records[g]? = some r) (halive : r.alive = true)
    (hlen : items.length = r.pending.length)
    (hrecords : l'.records = l.records.set g { r with alive := false })
    (hpoison : l'.poisoned = l.poisoned)
    (hlog : l'.log = l.log ++ (r.pending.zip items).map (fun p => .finalized g p.1 p.2)) :
    GenLog l' := by
  have hzip : (r.pending.zip items).map Prod.fst = r.pending := List.map_fst_zip (by omega)
  have hlt := (List.getElem?_eq_some_iff.mp hg).1
  have hmarked : ∀ g', ((r.pending.zip items).map
      (fun p => (.finalized g p.1 p.2 : Event α))).filterMap (markedIn g') = [] := by
    intro g'
    simp [List.filterMap_map, markedIn, Function.comp_def]
  have hfinalized : ∀ g', ((r.pending.zip items).map
      (fun p => (.finalized g p.1 p.2 : Event α))).filterMap (finalizedIn g') =
        if g' = g then r.pending else [] := by
    intro g'
    by_cases hg' : g' = g
    · subst hg'
      simp [List.filterMap_map, finalizedIn, Function.comp_def, hzip]
    · simp [List.filterMap_map, finalizedIn, Function.comp_def, Ne.symm hg', hg']
  have hby : ∀ j ∈ ((r.pending.zip items).map
      (fun p => (.finalized g p.1 p.2 : Event α))).filterMap finalizedBy, j = g := by
    intro j hj
    simp only [List.mem_filterMap, List.mem_map, finalizedBy] at hj
    obtain ⟨e, ⟨p, -, rfl⟩, hj⟩ := hj
    exact (Option.some.inj hj).symm
  refine ⟨fun g' => ?_, fun h g' => ?_, fun j hj => ?_, ?_, ?_⟩
  · rw [hlog, List.filterMap_append, hmarked, List.append_nil, hrecords, pendingOf_kill hg,
      hl.marked]
  · rw [hlog, List.filterMap_append, hfinalized, hrecords, finalizedOf_kill hg halive,
      hl.finalized (hpoison ▸ h)]
  · rw [hlog, List.filterMap_append, List.mem_append] at hj
    rw [hrecords, List.length_set, aliveIn_kill hg]
    rcases hj with hj | hj
    · exact ⟨(hl.dead j hj).1, fun h => (hl.dead j hj).2 h.2⟩
    · obtain rfl := hby j hj
      exact ⟨hlt, fun h => h.1 rfl⟩
  · rw [hlog, List.filterMap_append, List.pairwise_append]
    refine ⟨hl.order, List.pairwise_of_forall_mem_list fun j hj j' hj' => ?_,
      fun j hj j' hj' => ?_⟩
    · rw [hby j hj, hby j' hj']
    · -- an older event is of a generation that is not alive, hence before `g`
      obtain ⟨hjlt, hjdead⟩ := hl.dead j hj
      rw [hby j' hj']
      by_contra hle
      exact hjdead (hr.last g j ⟨r, hg, halive⟩ (by omega) hjlt)
  · have hstays : ∀ e ∈ (r.pending.zip items).map (fun p => (.finalized g p.1 p.2 : Event α)),
        e.staysIn = true := by
      intro e he
      obtain ⟨p, -, rfl⟩ := List.mem_map.mp he
      rfl
    rw [hlog, sinceAdvance_append hstays, List.filterMap_append, hmarked, List.append_nil, hrecords,
      List.length_set, pendingOf_kill hg, hl.recent]

/-- After a panic generations are dropped silently. -/
theorem GenLog.leak {g : Nat} {r : Record} (hl : GenLog l) (hg : l.records[g]? = some r)
    (hrecords : l'.records = l.records.set g { r with alive := false })
    (hpoison : l'.poisoned = true) (hlog : l'.log = l.log) : GenLog l' := by
  refine ⟨fun g' => ?_, fun h => absurd (hpoison.symm.trans h) (by simp), fun j hj => ?_, ?_, ?_⟩
  · rw [hlog, hrecords, pendingOf_kill hg, hl.marked]
  · rw [hlog] at hj
    rw [hrecords, List.length_set, aliveIn_kill hg]
    exact ⟨(hl.dead j hj).1, fun h => (hl.dead j hj).2 h.2⟩
  · rw [hlog]
    exact hl.order
  · rw [hlog, hrecords, List.length_set, pendingOf_kill hg, hl.recent]

theorem Next.genLog (h : Next l l') (hr : Records l) (hl : GenLog l) : GenLog l' := by
  cases h with
  | insert => exact hl.quiet rfl (fun h => h) rfl (by simp [Event.quiet])
  | reject => exact hl.quiet rfl (fun h => h) rfl (by simp [Event.quiet])
  | mark _ hg halive => exact hl.mark hg halive rfl rfl rfl
  | advance => exact hl.advance rfl rfl rfl
  | @finalize g r items hg halive hfirst hpoison hlen hitems =>
    have hfinalized : GenLog { l with
        records := l.records.set g { r with alive := false }
        log := l.log ++ (r.pending.zip items).map fun p => .finalized g p.1 p.2 } :=
      hl.finalize hr hg halive hlen rfl rfl rfl
    exact hfinalized.quiet rfl (fun h => h) rfl (quiet_map fun _ => rfl)
  | leak hg _ hpoison => exact hl.leak hg rfl hpoison rfl
  | dropStorage =>
    refine hl.quiet rfl (fun h => h) rfl ?_
    rw [List.forall_mem_cons]
    exact ⟨rfl, quiet_map fun _ => rfl⟩
  | poison => exact hl.quiet rfl (fun h => absurd h (by simp)) (List.append_nil _).symm (by simp)

end Ledger

end ZprUtils.RcuCslab
