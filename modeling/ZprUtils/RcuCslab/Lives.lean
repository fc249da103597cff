import ZprUtils.RcuCslab.Ledger

/-!
# The lives of the items in a slot

The events of one slot are a sequence of complete lives, followed by the beginning of the life of
the item that is in the slot. A life starts with an insertion; it ends with a mark in a generation
and the finalization by the same generation, which destroys the item, or with the drop of the
storage.

## Main definitions

* `Life` — the life of an item.
* `slotLog` — the events of a slot.
* `Ledger.Begun`, `Ledger.History` — the life that has begun, and the invariant.

## Main results

* `Ledger.Next.history` — every transition keeps the invariant.
-/

namespace ZprUtils.RcuCslab

variable {α : Type}

/-- The slot that an event is about. -/
def Event.idx? : Event α → Option Nat
  | .inserted i _ | .marked _ i | .finalized _ i _ => some i
  | .destroyed (.gen _ i) .. | .destroyed (.storage i) .. => some i
  | .destroyed .rejected .. | .advanced _ | .storageDropped => none

/-- The events of slot `i`. -/
def slotLog (i : Nat) (log : List (Event α)) : List (Event α) :=
  log.filter fun e => e.idx? == some i

/-- The life of an item that was accepted by an insertion. -/
inductive Life (α : Type) where
  /-- Marked in a generation, and destroyed by its drop. -/
  | removed (gen : Nat) (x : α)
  /-- Never removed, and destroyed by the drop of the storage. -/
  | kept (x : α)
  deriving DecidableEq, Repr

/-- The events of a life in slot `i`. -/
def Life.events (i : Nat) : Life α → List (Event α)
  | removed g x =>
    [.inserted i x, .marked g i, .finalized g i x, .destroyed (.gen g i) x false]
  | kept x => [.inserted i x, .destroyed (.storage i) x false]

section

variable {i j : Nat} {log es : List (Event α)}

@[simp] theorem slotLog_append : slotLog i (log ++ es) = slotLog i log ++ slotLog i es :=
  List.filter_append ..

theorem slotLog_eq_nil (h : ∀ e ∈ es, e.idx? ≠ some i) : slotLog i es = [] := by
  rw [slotLog, List.filter_eq_nil_iff]
  intro e he
  simpa using h e he

/-- At most one event of a list is about slot `i` when the indices are distinct. -/
theorem slotLog_map_of_mem {l : List (Nat × α)} {f : Nat × α → Event α} {x : α}
    (hf : ∀ p, (f p).idx? = some p.1) (hnodup : (l.map Prod.fst).Nodup) (hmem : (i, x) ∈ l) :
    slotLog i (l.map f) = [f (i, x)] := by
  induction l with
  | nil => exact absurd hmem List.not_mem_nil
  | cons p l ih =>
    rw [List.map_cons, List.nodup_cons] at hnodup
    rw [List.map_cons, ← List.singleton_append, slotLog_append]
    rcases List.mem_cons.mp hmem with rfl | hmem
    · have hrest : slotLog i (l.map f) = [] := by
        refine slotLog_eq_nil fun e he => ?_
        obtain ⟨q, hq, rfl⟩ := List.mem_map.mp he
        rw [hf q]
        intro h
        obtain rfl := Option.some.inj h
        exact hnodup.1 (List.mem_map.mpr ⟨q, hq, rfl⟩)
      rw [hrest]
      simp [slotLog, hf]
    · have hne : p.1 ≠ i := by
        rintro rfl
        exact hnodup.1 (List.mem_map.mpr ⟨(p.1, x), hmem, rfl⟩)
      rw [ih hnodup.2 hmem]
      simp [slotLog, hf, hne]

theorem slotLog_map_of_not_mem {l : List (Nat × α)} {f : Nat × α → Event α}
    (hf : ∀ p, (f p).idx? = some p.1) (hmem : ∀ x, (i, x) ∉ l) : slotLog i (l.map f) = [] := by
  refine slotLog_eq_nil fun e he h => ?_
  obtain ⟨⟨j, x⟩, hp, rfl⟩ := List.mem_map.mp he
  rw [hf] at h
  obtain rfl := Option.some.inj h
  exact hmem x hp

end

namespace Ledger

variable {l l' : Ledger α} {i : Nat}

/-- The events of the life that has begun in slot `i`. -/
inductive Begun (l : Ledger α) (i : Nat) : List (Event α) → Prop
  | free (hslot : l.slot i = .free) : Begun l i []
  | live {x : α} (hslot : l.slot i = .live x) (hdropped : l.dropped = false) :
      Begun l i [.inserted i x]
  | dropped {x : α} (hslot : l.slot i = .live x) (hdropped : l.dropped = true) : Begun l i []
  | pending {x : α} {g : Nat} (hslot : l.slot i = .pending x)
      (hrecorded : RecordedIn l.records g i ∨ l.poisoned = true) :
      Begun l i [.inserted i x, .marked g i]

/-- **The events of each slot** are complete lives and the one that has begun. -/
def History (l : Ledger α) : Prop :=
  ∀ i, ∃ (lives : List (Life α)) (begun : List (Event α)),
    slotLog i l.log = lives.flatMap (Life.events i) ++ begun ∧ Begun l i begun

theorem history_init : History (init : Ledger α) := fun _ => ⟨[], [], rfl, .free rfl⟩

theorem Begun.mono {begun : List (Event α)} (h : Begun l i begun) (hslot : l'.slot i = l.slot i)
    (hdropped : l'.dropped = l.dropped)
    (hrecorded : ∀ g, RecordedIn l.records g i ∨ l.poisoned = true →
      RecordedIn l'.records g i ∨ l'.poisoned = true) : Begun l' i begun := by
  cases h with
  | free h => exact .free (hslot.trans h)
  | live h hd => exact .live (hslot.trans h) (hdropped.trans hd)
  | dropped h hd => exact .dropped (hslot.trans h) (hdropped.trans hd)
  | pending h hr => exact .pending (hslot.trans h) (hrecorded _ hr)

/-- A slot that a transition does not touch. -/
theorem History.frame {es : List (Event α)} (h : History l) (hlog : l'.log = l.log ++ es)
    (hes : slotLog i es = []) (hslot : l'.slot i = l.slot i) (hdropped : l'.dropped = l.dropped)
    (hrecorded : ∀ g, RecordedIn l.records g i ∨ l.poisoned = true →
      RecordedIn l'.records g i ∨ l'.poisoned = true) :
    ∃ (lives : List (Life α)) (begun : List (Event α)),
      slotLog i l'.log = lives.flatMap (Life.events i) ++ begun ∧ Begun l' i begun := by
  obtain ⟨lives, begun, heq, hbegun⟩ := h i
  refine ⟨lives, begun, ?_, hbegun.mono hslot hdropped hrecorded⟩
  rw [hlog, slotLog_append, hes, List.append_nil, heq]

theorem History.of_free (h : History l) (hslot : l.slot i = .free) :
    ∃ lives : List (Life α), slotLog i l.log = lives.flatMap (Life.events i) := by
  obtain ⟨lives, begun, heq, hbegun⟩ := h i
  cases hbegun with
  | free => exact ⟨lives, by rw [heq, List.append_nil]⟩
  | live h | dropped h | pending h => exact absurd (hslot.symm.trans h) (by simp)

theorem History.of_live {x : α} (h : History l) (hslot : l.slot i = .live x)
    (hdropped : l.dropped = false) : ∃ lives : List (Life α),
      slotLog i l.log = lives.flatMap (Life.events i) ++ [.inserted i x] := by
  obtain ⟨lives, begun, heq, hbegun⟩ := h i
  cases hbegun with
  | free h | pending h => exact absurd (hslot.symm.trans h) (by simp)
  | dropped _ hd => exact absurd (hdropped.symm.trans hd) (by simp)
  | live h =>
    obtain rfl := Slot.live.inj (hslot.symm.trans h)
    exact ⟨lives, heq⟩

theorem History.of_pending {x : α} (h : History l) (hslot : l.slot i = .pending x) :
    ∃ (lives : List (Life α)) (g : Nat),
      slotLog i l.log = lives.flatMap (Life.events i) ++ [.inserted i x, .marked g i] ∧
        (RecordedIn l.records g i ∨ l.poisoned = true) := by
  obtain ⟨lives, begun, heq, hbegun⟩ := h i
  cases hbegun with
  | free h | live h | dropped h => exact absurd (hslot.symm.trans h) (by simp)
  | @pending y g h hr =>
    obtain rfl := Slot.pending.inj (hslot.symm.trans h)
    exact ⟨lives, g, heq, hr⟩

theorem History.insert {x : α} {j : Nat} (h : History l) (hfree : l.slot j = .free)
    (hdropped : l.dropped = false) :
    History { l with
      slot := Function.update l.slot j (.live x)
      log := l.log ++ [.inserted j x] } := by
  intro i
  by_cases hij : i = j
  · subst hij
    obtain ⟨lives, heq⟩ := h.of_free hfree
    refine ⟨lives, [.inserted i x], ?_, .live (Function.update_self ..) hdropped⟩
    rw [slotLog_append, heq]
    simp [slotLog, Event.idx?]
  · exact h.frame rfl (slotLog_eq_nil (by simp [Event.idx?, Ne.symm hij]))
      (Function.update_of_ne hij ..) rfl fun _ => id

theorem History.mark {x : α} {g j : Nat} {r : Record} (h : History l) (hlive : l.slot j = .live x)
    (hr : l.records[g]? = some r) (halive : r.alive = true) (hdropped : l.dropped = false) :
    History { l with
      slot := Function.update l.slot j (.pending x)
      records := l.records.set g { r with pending := r.pending ++ [j] }
      log := l.log ++ [.marked g j] } := by
  intro i
  by_cases hij : i = j
  · subst hij
    obtain ⟨lives, heq⟩ := h.of_live hlive hdropped
    refine ⟨lives, [.inserted i x, .marked g i], ?_, .pending (Function.update_self ..)
      (Or.inl ((recordedIn_mark hr halive).mpr (Or.inr ⟨rfl, rfl⟩)))⟩
    rw [slotLog_append, heq]
    simp [slotLog, Event.idx?]
  · exact h.frame rfl (slotLog_eq_nil (by simp [Event.idx?, Ne.symm hij]))
      (Function.update_of_ne hij ..) rfl
      fun _ hrec => hrec.imp_left fun hrec => (recordedIn_mark hr halive).mpr (Or.inl hrec)

/-- A generation finalizes the removals that were marked in it. -/
theorem History.finalize {g : Nat} {r : Record} {items : List α} (h : History l) (hl : Records l)
    (hr : l.records[g]? = some r) (halive : r.alive = true) (hpoison : l.poisoned = false)
    (hlen : items.length = r.pending.length)
    (hitems : ∀ p ∈ r.pending.zip items, l.slot p.1 = .pending p.2) :
    History { l with
      slot := fun j => if j ∈ r.pending then .free else l.slot j
      records := l.records.set g { r with alive := false }
      log := l.log ++ (r.pending.zip items).map (fun p => .finalized g p.1 p.2) ++
        (r.pending.zip items).map (fun p => .destroyed (.gen g p.1) p.2 false) } := by
  have hzip : (r.pending.zip items).map Prod.fst = r.pending := List.map_fst_zip (by omega)
  intro i
  by_cases hi : i ∈ r.pending
  · obtain ⟨⟨i', x⟩, hmem, rfl⟩ := List.mem_map.mp (hzip ▸ hi)
    have hnodup : ((r.pending.zip items).map Prod.fst).Nodup := by
      rw [hzip]
      exact hl.nodup g r hr
    obtain ⟨lives, g', heq, hrec⟩ := h.of_pending (hitems _ hmem)
    obtain rfl : g' = g := by
      refine hl.unique g' g i' (hrec.resolve_right ?_) ⟨r, hr, halive, hi⟩
      simp [hpoison]
    refine ⟨lives ++ [.removed g' x], [], ?_, .free (if_pos hi)⟩
    rw [slotLog_append, slotLog_append, heq,
      slotLog_map_of_mem (fun _ => rfl) hnodup hmem, slotLog_map_of_mem (fun _ => rfl) hnodup hmem]
    simp [Life.events]
  · have hnot : ∀ x, (i, x) ∉ r.pending.zip items := fun x hx => hi (List.of_mem_zip hx).1
    refine h.frame (List.append_assoc ..) ?_ (if_neg hi) rfl fun g' hrec => ?_
    · rw [slotLog_append, slotLog_map_of_not_mem (fun _ => rfl) hnot,
        slotLog_map_of_not_mem (fun _ => rfl) hnot, List.append_nil]
    · refine hrec.imp_left fun hrec => (recordedIn_kill hr).mpr ⟨?_, hrec⟩
      rintro rfl
      obtain ⟨r', hr', -, hi'⟩ := hrec
      exact hi (Option.some.inj (hr.symm.trans hr') ▸ hi')

/-- The drop of the storage destroys the items that are visible. -/
theorem History.dropStorage {items : List (Nat × α)} (h : History l) (hdropped : l.dropped = false)
    (hnodup : (items.map Prod.fst).Nodup) (hitems : ∀ p, p ∈ items ↔ l.slot p.1 = .live p.2) :
    History { l with
      dropped := true
      log := l.log ++ .storageDropped ::
        items.map fun p => .destroyed (.storage p.1) p.2 false } := by
  have hcons : ∀ i, slotLog i (.storageDropped ::
      items.map fun p => (.destroyed (.storage p.1) p.2 false : Event α)) =
        slotLog i (items.map fun p => (.destroyed (.storage p.1) p.2 false : Event α)) := by
    intro i
    simp [slotLog, Event.idx?]
  intro i
  cases hslot : l.slot i with
  | live x =>
    obtain ⟨lives, heq⟩ := h.of_live hslot hdropped
    refine ⟨lives ++ [.kept x], [], ?_, .dropped hslot rfl⟩
    rw [slotLog_append, heq, hcons,
      slotLog_map_of_mem (fun _ => rfl) hnodup ((hitems (i, x)).mpr hslot)]
    simp [Life.events]
  | free =>
    obtain ⟨lives, heq⟩ := h.of_free hslot
    refine ⟨lives, [], ?_, .free hslot⟩
    rw [slotLog_append, heq, hcons, slotLog_map_of_not_mem (fun _ => rfl) fun x hx => ?_]
    exact absurd (hslot.symm.trans ((hitems (i, x)).mp hx)) (by simp)
  | pending x =>
    obtain ⟨lives, g, heq, hrec⟩ := h.of_pending hslot
    refine ⟨lives, [.inserted i x, .marked g i], ?_, .pending hslot hrec⟩
    rw [slotLog_append, heq, hcons, slotLog_map_of_not_mem (fun _ => rfl) fun y hy => ?_,
      List.append_nil]
    exact absurd (hslot.symm.trans ((hitems (i, y)).mp hy)) (by simp)

theorem Next.history (h : Next l l') (hr : Records l) (hh : History l) : History l' := by
  cases h with
  | insert hfree hdropped => exact hh.insert hfree hdropped
  | mark hlive hg halive hdropped => exact hh.mark hlive hg halive hdropped
  | finalize hg halive hfirst hpoison hlen hitems =>
    exact hh.finalize hr hg halive hpoison hlen hitems
  | dropStorage hdropped hdead hnodup hitems => exact hh.dropStorage hdropped hnodup hitems
  | reject =>
    exact fun i => hh.frame rfl (slotLog_eq_nil (by simp [Event.idx?])) rfl rfl fun _ => id
  | advance =>
    exact fun i => hh.frame rfl (slotLog_eq_nil (by simp [Event.idx?])) rfl rfl
      fun _ hrec => hrec.imp_left recordedIn_push.mpr
  | leak hg hfirst hpoison =>
    exact fun i => hh.frame (List.append_nil _).symm rfl rfl rfl fun _ _ => Or.inr hpoison
  | poison => exact fun i => hh.frame (List.append_nil _).symm rfl rfl rfl fun _ _ => Or.inr rfl

/-! ### The end -/

/-- **The storage is dropped last.** After its drop no removal is finalized any more. -/
structure DroppedLast (l : Ledger α) : Prop where
  not_mem : l.dropped = false → .storageDropped ∉ l.log
  after : l.log.Pairwise fun e e' => e = .storageDropped → finalizedBy e' = none

theorem droppedLast_init : DroppedLast (init : Ledger α) := ⟨fun _ => List.not_mem_nil, .nil⟩

/-- A change of the log that neither drops the storage nor finalizes a removal. -/
theorem DroppedLast.append {es : List (Event α)} (h : DroppedLast l)
    (hlog : l'.log = l.log ++ es) (hdropped : l'.dropped = l.dropped)
    (hes : ∀ e ∈ es, e ≠ .storageDropped)
    (hby : l.dropped = true → ∀ e ∈ es, finalizedBy e = none) : DroppedLast l' := by
  refine ⟨fun hd hmem => ?_, ?_⟩
  · rw [hlog, List.mem_append] at hmem
    rcases hmem with hmem | hmem
    · exact h.not_mem (hdropped ▸ hd) hmem
    · exact hes _ hmem rfl
  · rw [hlog, List.pairwise_append]
    refine ⟨h.after, List.pairwise_of_forall_mem_list fun e he _ _ heq => absurd heq (hes e he),
      fun e he e' he' heq => ?_⟩
    cases hd : l.dropped with
    | false => exact absurd (heq ▸ he) (h.not_mem hd)
    | true => exact hby hd e' he'

theorem Next.droppedLast (h : Next l l') (hr : Records l) (hd : DroppedLast l) :
    DroppedLast l' := by
  cases h with
  | insert | reject | mark | advance =>
    exact hd.append rfl rfl (by simp) fun _ => by simp [finalizedBy]
  | leak | poison => exact hd.append (List.append_nil _).symm rfl (by simp) fun _ => by simp
  | @finalize g r items hg halive hfirst hpoison hlen hitems =>
    refine hd.append (List.append_assoc ..) rfl (fun e he => ?_) fun hdropped => ?_
    · rw [List.mem_append, List.mem_map, List.mem_map] at he
      rcases he with ⟨p, -, rfl⟩ | ⟨p, -, rfl⟩ <;> simp
    · exact absurd ⟨r, hg, halive⟩ (hr.dropped hdropped g)
  | @dropStorage items hdropped hdead hnodup hitems =>
    refine ⟨fun h => absurd h (by simp), List.pairwise_append.mpr ⟨hd.after, ?_, ?_⟩⟩
    · refine List.pairwise_cons.mpr ⟨fun e he _ => ?_, ?_⟩
      · obtain ⟨p, -, rfl⟩ := List.mem_map.mp he
        rfl
      · refine List.pairwise_of_forall_mem_list fun e he _ _ heq => ?_
        obtain ⟨p, -, rfl⟩ := List.mem_map.mp he
        exact absurd heq (by simp)
    · intro e he _ _ heq
      exact absurd (heq ▸ he) (hd.not_mem hdropped)

/-! ### Runs -/

/-- **The invariant of the ledger.** -/
structure Inv (l : Ledger α) : Prop where
  records : Records l
  genLog : GenLog l
  history : History l
  droppedLast : DroppedLast l

theorem inv_init : Inv (init : Ledger α) :=
  ⟨records_init, genLog_init, history_init, droppedLast_init⟩

theorem Next.inv (h : Next l l') (hl : Inv l) : Inv l' :=
  ⟨h.records hl.records, h.genLog hl.records hl.genLog, h.history hl.records hl.history,
    h.droppedLast hl.records hl.droppedLast⟩

end Ledger

end ZprUtils.RcuCslab
