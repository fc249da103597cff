import ZprUtils.Foundations.Logs
import ZprUtils.RcuCslab.Bookkeeping
import ZprUtils.Threads.Quiescence

/-!
# The events of the generations under many threads

The destructor of a generation finalizes its removals one by one, and destroys the items after it
has given the mutex back, while other threads mark, finalize and destroy items of other generations.
So the events of different generations are mixed in the log. For each generation the log and the
threads together say how far it has come: what has been marked is what has been finalized and what
is still to be finalized, and what has been taken out is what has been destroyed and what is still
to be destroyed.

## Main definitions

* `Chronicled` — how far a generation has come.
* `Config.Chronicle` — the invariant of the events of all generations.

## Main results

* `Move.chronicle` — every move keeps it.
-/

namespace ZprUtils.RcuCslab

variable {α : Type} {log es : List (Event α)} {g i : Nat} {x : α} {indices : List Nat}
  {items : List (Nat × α)}

/-! ### The events of one generation -/

/-- The generation that an event is about. -/
def Event.gen? : Event α → Option Nat
  | .marked g _ | .finalized g _ _ | .destroyed (.gen g _) _ _ => some g
  | _ => none

/-- The item that generation `g` takes out of a slot, with the slot. -/
def takenBy (g : Nat) : Event α → Option (Nat × α)
  | .finalized g' i x => if g' = g then some (i, x) else none
  | _ => none

/-- The item that generation `g` destroys, with the slot it was in. -/
def destroyedBy (g : Nat) : Event α → Option (Nat × α)
  | .destroyed (.gen g' i) x _ => if g' = g then some (i, x) else none
  | _ => none

/-- Generation `g` has still to finalize the removals of `indices` and to destroy `items`. -/
structure Chronicled (log : List (Event α)) (g : Nat) (indices : List Nat)
    (items : List (Nat × α)) : Prop where
  marked : log.filterMap (markedIn g) = log.filterMap (finalizedIn g) ++ indices
  taken : log.filterMap (takenBy g) = log.filterMap (destroyedBy g) ++ items

theorem filterMap_eq_nil_of_gen? {β : Type} {f : Event α → Option β}
    (hf : ∀ e, e.gen? ≠ some g → f e = none) (hes : ∀ e ∈ es, e.gen? ≠ some g) :
    es.filterMap f = [] :=
  List.filterMap_eq_nil_iff.mpr fun e he => hf e (hes e he)

theorem markedIn_marked (g i : Nat) : markedIn g (.marked g i : Event α) = some i := if_pos rfl

theorem finalizedIn_finalized (g i : Nat) (x : α) : finalizedIn g (.finalized g i x) = some i :=
  if_pos rfl

theorem takenBy_finalized (g i : Nat) (x : α) : takenBy g (.finalized g i x) = some (i, x) :=
  if_pos rfl

theorem destroyedBy_destroyed (g i : Nat) (x : α) (b : Bool) :
    destroyedBy g (.destroyed (.gen g i) x b) = some (i, x) := if_pos rfl

theorem markedIn_eq_none {e : Event α} (h : e.gen? ≠ some g) : markedIn g e = none := by
  cases e with
  | marked g' i => exact if_neg fun hg => h (congrArg some hg)
  | _ => rfl

theorem finalizedIn_eq_none {e : Event α} (h : e.gen? ≠ some g) : finalizedIn g e = none := by
  cases e with
  | finalized g' i x => exact if_neg fun hg => h (congrArg some hg)
  | _ => rfl

theorem takenBy_eq_none {e : Event α} (h : e.gen? ≠ some g) : takenBy g e = none := by
  cases e with
  | finalized g' i x => exact if_neg fun hg => h (congrArg some hg)
  | _ => rfl

theorem destroyedBy_eq_none {e : Event α} (h : e.gen? ≠ some g) : destroyedBy g e = none := by
  cases e with
  | destroyed site x locked =>
    cases site with
    | gen g' i => exact if_neg fun hg => h (congrArg some hg)
    | _ => rfl
  | _ => rfl

namespace Chronicled

/-- Events of other generations. -/
theorem append (h : Chronicled log g indices items) (hes : ∀ e ∈ es, e.gen? ≠ some g) :
    Chronicled (log ++ es) g indices items := by
  constructor
  · rw [List.filterMap_append, List.filterMap_append,
      filterMap_eq_nil_of_gen? (fun _ => markedIn_eq_none) hes,
      filterMap_eq_nil_of_gen? (fun _ => finalizedIn_eq_none) hes, List.append_nil, List.append_nil]
    exact h.marked
  · rw [List.filterMap_append, List.filterMap_append,
      filterMap_eq_nil_of_gen? (fun _ => takenBy_eq_none) hes,
      filterMap_eq_nil_of_gen? (fun _ => destroyedBy_eq_none) hes, List.append_nil,
      List.append_nil]
    exact h.taken

theorem mark (h : Chronicled log g indices items) :
    Chronicled (log ++ [.marked g i]) g (indices ++ [i]) items := by
  constructor
  · rw [filterMap_concat_of_some (markedIn_marked g i), filterMap_concat_of_none rfl, h.marked,
      List.append_assoc]
  · rw [filterMap_concat_of_none rfl, filterMap_concat_of_none rfl]
    exact h.taken

theorem finalize (h : Chronicled log g (i :: indices) items) :
    Chronicled (log ++ [.finalized g i x]) g indices (items ++ [(i, x)]) := by
  constructor
  · rw [filterMap_concat_of_none rfl, filterMap_concat_of_some (finalizedIn_finalized g i x),
      h.marked, List.append_assoc, List.singleton_append]
  · rw [filterMap_concat_of_some (takenBy_finalized g i x), filterMap_concat_of_none rfl, h.taken,
      List.append_assoc]

theorem destroy {b : Bool} (h : Chronicled log g indices ((i, x) :: items)) :
    Chronicled (log ++ [.destroyed (.gen g i) x b]) g indices items := by
  constructor
  · rw [filterMap_concat_of_none rfl, filterMap_concat_of_none rfl]
    exact h.marked
  · rw [filterMap_concat_of_none rfl, filterMap_concat_of_some (destroyedBy_destroyed g i x b),
      h.taken, List.append_assoc, List.singleton_append]

end Chronicled

/-! ### Destructors in progress -/

/-- The generation whose destructor is in progress. -/
def Drop.gen? : Drop α → Option Nat
  | .finalize g _ _ | .finalizing g _ _ _ | .items g _ _ => some g
  | _ => none

/-- How far the destructor of a generation has come. -/
def Drop.Chronicled (log : List (Event α)) : Drop α → Prop
  | .finalize g indices _ => RcuCslab.Chronicled log g indices []
  | .finalizing g indices taken _ => RcuCslab.Chronicled log g indices taken
  | .items g taken _ => RcuCslab.Chronicled log g [] taken
  | _ => True

/-- The destructor of a generation has a reference to the next one, if there is one; `n` is the
number of generations. -/
def Drop.Linked (n : Nat) : Drop α → Prop
  | .finalize g _ next | .finalizing g _ _ next | .items g _ next =>
    next = if g + 1 < n then some (g + 1) else none
  | _ => True

theorem Drop.Chronicled.append {d : Drop α} (h : d.Chronicled log) (hd : d.gen? = some g)
    (hes : ∀ e ∈ es, e.gen? ≠ some g) : d.Chronicled (log ++ es) := by
  cases d with
  | finalize g' indices next | finalizing g' indices items next | items g' items next =>
    obtain rfl := Option.some.inj hd
    exact RcuCslab.Chronicled.append h hes
  | _ => trivial

theorem Drop.Linked.congr {d : Drop α} {n n' : Nat} (h : d.Linked n) (hd : d.gen? = some g)
    (hnext : g + 1 < n' ↔ g + 1 < n) : d.Linked n' := by
  cases d with
  | finalize g' indices next | finalizing g' indices items next | items g' items next =>
    obtain rfl := Option.some.inj hd
    simp only [Drop.Linked, hnext]
    exact h
  | _ => trivial

/-- The destructors of generation `g` that are in progress. -/
def Thread.dropsOf (g : Nat) (th : Thread α) : List (Drop α) :=
  th.drops.filter (·.gen? == some g)

/-- The number of destructors of generation `g` that are in progress. -/
def Config.inFlight (c : Config α) (g : Nat) : Nat :=
  total (fun th => (th.dropsOf g).length) c.threads

/-- The removals recorded in the generations, and which of them are alive. -/
def Config.records (c : Config α) : List Record := c.state.gens.map Gen.record

/-- How far generation `g` has come: it is alive or does not exist yet, a thread runs its
destructor, or it is gone. A generation that is gone has finalized all its removals, unless the
mutex is poisoned. -/
inductive Config.Stage (c : Config α) (g : Nat) : Prop
  | opened (hopen : ∀ r, c.records[g]? = some r → r.alive = true) (hnone : c.inFlight g = 0)
      (hunfinal : g ∉ c.state.log.filterMap finalizedBy)
      (hlog : Chronicled c.state.log g (Ledger.pendingOf c.records g) [])
  | flight {r : Record} {t : Nat} {th : Thread α} {d : Drop α} (hr : c.records[g]? = some r)
      (hdead : r.alive = false) (hone : c.inFlight g = 1) (ht : c.ThreadAt t th)
      (hd : th.dropsOf g = [d]) (hlog : d.Chronicled c.state.log)
      (hlinked : d.Linked c.records.length)
  | done {r : Record} {lost : List Nat} (hr : c.records[g]? = some r) (hdead : r.alive = false)
      (hnone : c.inFlight g = 0) (hlog : Chronicled c.state.log g lost [])
      (hlost : c.state.poisoned = false → lost = [])

/-- **The events of the generations**, which finalize their removals in order. -/
structure Config.Chronicle (c : Config α) : Prop where
  stage : ∀ g, c.Stage g
  sorted : (c.state.log.filterMap finalizedBy).Pairwise (· ≤ ·)

/-! ### What a step keeps -/

variable {c : Config α} {t : Nat} {th : Thread α} {p : Site α}

theorem inFlight_place (ht : c.ThreadAt t th) (p : Site α) (g : Nat) :
    (c.place t p).inFlight g + (th.dropsOf g).length =
      c.inFlight g + (p.thread.dropsOf g).length :=
  total_set (w := fun th => (th.dropsOf g).length) ht p.thread

theorem dropsOf_of_cons {d : Drop α} {ds : List (Drop α)} (hdrops : th.drops = d :: ds)
    (hd : d.gen? = some g) : th.dropsOf g = d :: ds.filter (·.gen? == some g) := by
  have hbeq : (d.gen? == some g) = true := beq_iff_eq.mpr hd
  simp only [Thread.dropsOf, hdrops, List.filter_cons, hbeq, if_true]

theorem dropsOf_of_cons_ne {d : Drop α} {ds : List (Drop α)} (hdrops : th.drops = d :: ds)
    (hd : d.gen? ≠ some g) : th.dropsOf g = ds.filter (·.gen? == some g) := by
  have hbeq : (d.gen? == some g) = false := beq_eq_false_iff_ne.mpr hd
  simp [Thread.dropsOf, hdrops, hbeq]

theorem gen?_of_dropsOf {d : Drop α} (hd : th.dropsOf g = [d]) : d.gen? = some g := by
  have hmem : d ∈ th.dropsOf g := by
    rw [hd]
    exact List.mem_singleton_self d
  exact beq_iff_eq.mp (List.mem_filter.mp hmem).2

theorem finalizedBy_append_of_gen? (hes : ∀ e ∈ es, e.gen? ≠ some g)
    (h : g ∉ log.filterMap finalizedBy) : g ∉ (log ++ es).filterMap finalizedBy := by
  rw [List.filterMap_append, List.mem_append]
  rintro (hmem | hmem)
  · exact h hmem
  · obtain ⟨e, he, hg⟩ := List.mem_filterMap.mp hmem
    refine hes e he ?_
    cases e with
    | finalized g' i x => exact hg
    | _ => exact absurd hg (by simp [finalizedBy])

namespace Config.Stage

/-- The destructor of a generation is run by one thread. -/
theorem of_dropsOf {d : Drop α} {ds : List (Drop α)} (h : c.Stage g) (ht : c.ThreadAt t th)
    (hd : th.dropsOf g = d :: ds) :
    ds = [] ∧ c.inFlight g = 1 ∧ (∃ r, c.records[g]? = some r ∧ r.alive = false) ∧
      d.Chronicled c.state.log ∧ d.Linked c.records.length := by
  have hself := le_total (w := fun th => (th.dropsOf g).length) ht
  simp only [hd, List.length_cons] at hself
  cases h with
  | opened _ hnone | done _ _ hnone =>
    rw [Config.inFlight] at hnone
    omega
  | @flight r u uh d' hr hdead hone hu hd' hlog hlinked =>
    by_cases hut : t = u
    · subst hut
      obtain rfl : th = uh := Option.some.inj (ht.symm.trans hu)
      obtain ⟨rfl, rfl⟩ := List.cons.inj (hd.symm.trans hd')
      exact ⟨rfl, hone, ⟨r, hr, hdead⟩, hlog, hlinked⟩
    · have hboth := add_le_total (w := fun th => (th.dropsOf g).length) ht hu hut
      simp only [hd, hd', List.length_cons] at hboth
      rw [Config.inFlight] at hone
      omega

/-- A step that is not about generation `g`. -/
theorem frame (h : c.Stage g) (ht : c.ThreadAt t th)
    (hrecord : (c.place t p).records[g]? = c.records[g]?)
    (hnext : (∃ r, c.records[g]? = some r ∧ r.alive = false) →
      (g + 1 < (c.place t p).records.length ↔ g + 1 < c.records.length))
    (hlog : p.state.log = c.state.log ++ es) (hes : ∀ e ∈ es, e.gen? ≠ some g)
    (hpoison : p.state.poisoned = false → c.state.poisoned = false)
    (hdrops : p.thread.dropsOf g = th.dropsOf g) : (c.place t p).Stage g := by
  have hlog' : (c.place t p).state.log = c.state.log ++ es := hlog
  have hflight : (c.place t p).inFlight g = c.inFlight g := by
    have hplace := inFlight_place ht p g
    rw [hdrops] at hplace
    omega
  cases h with
  | opened hopen hnone hunfinal hchron =>
    refine .opened (hrecord ▸ hopen) (hflight.trans hnone) ?_ ?_
    · rw [hlog']
      exact finalizedBy_append_of_gen? hes hunfinal
    · rw [hlog', Ledger.pendingOf, hrecord]
      exact hchron.append hes
  | @flight r u uh d hr hdead hone hu hd hchron hlinked =>
    have hgen := gen?_of_dropsOf hd
    have hchron' : d.Chronicled (c.place t p).state.log := by
      rw [hlog']
      exact hchron.append hgen hes
    have hlinked' := hlinked.congr hgen (hnext ⟨r, hr, hdead⟩)
    by_cases hut : u = t
    · subst hut
      obtain rfl : th = uh := Option.some.inj (ht.symm.trans hu)
      exact .flight (hrecord.trans hr) hdead (hflight.trans hone)
        ((threadAt_place ht).mpr (Or.inl ⟨rfl, rfl⟩)) (hdrops.trans hd) hchron' hlinked'
    · exact .flight (hrecord.trans hr) hdead (hflight.trans hone)
        ((threadAt_place ht).mpr (Or.inr ⟨hut, hu⟩)) hd hchron' hlinked'
  | done hr hdead hnone hchron hlost =>
    refine .done (hrecord.trans hr) hdead (hflight.trans hnone) ?_ fun hp => hlost (hpoison hp)
    rw [hlog']
    exact hchron.append hes

/-- A step that is about no generation. -/
theorem quiet (h : c.Stage g) (ht : c.ThreadAt t th) (hrecords : (c.place t p).records = c.records)
    (hlog : p.state.log = c.state.log ++ es) (hes : ∀ e ∈ es, e.gen? = none)
    (hpoison : p.state.poisoned = false → c.state.poisoned = false)
    (hdrops : p.thread.dropsOf g = th.dropsOf g) : (c.place t p).Stage g :=
  h.frame ht (by rw [hrecords]) (fun _ => by rw [hrecords]) hlog
    (fun e he => by simp [hes e he]) hpoison hdrops

/-- One step of the destructor of generation `g`: what it has done is in the log, and what it still
has to do is in the frame on top of the thread. -/
theorem go {d d' : Drop α} {ds : List (Drop α)} {pc : Pc α} {u : Bool} (h : c.Stage g)
    (ht : c.ThreadAt t ⟨d :: ds, pc, u⟩) (hd : d.gen? = some g)
    (hrecords : (c.place t p).records = c.records) (hdrops : p.thread.drops = d' :: ds)
    (hd' : d'.gen? = some g) (hlog : d.Chronicled c.state.log → d'.Chronicled p.state.log)
    (hlinked : d.Linked c.records.length → d'.Linked c.records.length) :
    (c.place t p).Stage g := by
  have hhead : Thread.dropsOf g ⟨d :: ds, pc, u⟩ = d :: ds.filter (·.gen? == some g) :=
    dropsOf_of_cons rfl hd
  obtain ⟨hnil, hone, ⟨r, hr, hdead⟩, hchron, hlink⟩ := h.of_dropsOf ht hhead
  have hhead' : p.thread.dropsOf g = [d'] := by
    rw [dropsOf_of_cons hdrops hd', hnil]
  refine .flight (hrecords ▸ hr) hdead ?_ ((threadAt_place ht).mpr (Or.inl ⟨rfl, rfl⟩)) hhead'
    (hlog hchron) (hrecords ▸ hlinked hlink)
  have hplace := inFlight_place ht p g
  rw [hhead, hhead', hnil] at hplace
  simp only [List.length_cons, List.length_nil] at hplace
  omega

/-- The end of the destructor of generation `g`. What it has not finalized is lost, and without a
poisoned mutex that is nothing. -/
theorem finish {d : Drop α} {ds : List (Drop α)} {pc : Pc α} {u : Bool} {lost : List Nat}
    (h : c.Stage g) (ht : c.ThreadAt t ⟨d :: ds, pc, u⟩) (hd : d.gen? = some g)
    (hrecords : (c.place t p).records = c.records)
    (hdrops : p.thread.dropsOf g = ds.filter (·.gen? == some g))
    (hlog : d.Chronicled c.state.log → Chronicled p.state.log g lost [])
    (hlost : p.state.poisoned = false → lost = []) : (c.place t p).Stage g := by
  have hhead : Thread.dropsOf g ⟨d :: ds, pc, u⟩ = d :: ds.filter (·.gen? == some g) :=
    dropsOf_of_cons rfl hd
  obtain ⟨hnil, hone, ⟨r, hr, hdead⟩, hchron, -⟩ := h.of_dropsOf ht hhead
  refine .done (hrecords ▸ hr) hdead ?_ (hlog hchron) hlost
  have hplace := inFlight_place ht p g
  rw [hhead, hdrops, hnil] at hplace
  simp only [List.length_cons, List.length_nil] at hplace
  omega

/-- The last reference to a generation is dropped, and its destructor starts, with the removals
recorded so far. Nobody can record another one. -/
theorem die {gen : Gen} {ds : List (Drop α)} {pc : Pc α} {u : Bool} (h : c.Stage g)
    (ht : c.ThreadAt t ⟨.gen g :: ds, pc, u⟩) (hgen : c.state.gens[g]? = some gen)
    (halive : gen.alive = true)
    (hnext : gen.nextGen = if g + 1 < c.state.gens.length then some (g + 1) else none)
    (hgens : p.state.gens = c.state.gens.set g { gen with strong := 0 })
    (hlog : p.state.log = c.state.log)
    (hdrops : p.thread.drops = .finalize g gen.pendingRemoves gen.nextGen :: ds) :
    (c.place t p).Stage g := by
  have hr : c.records[g]? = some gen.record := getElem?_map_record hgen
  have hself : (⟨.gen g :: ds, pc, u⟩ : Thread α).dropsOf g = ds.filter (·.gen? == some g) := rfl
  cases h with
  | opened hopen hnone hunfinal hchron =>
    have hle := le_total (w := fun th => (th.dropsOf g).length) ht
    simp only [hself] at hle
    have hnil : ds.filter (·.gen? == some g) = [] := by
      refine List.eq_nil_of_length_eq_zero ?_
      rw [Config.inFlight] at hnone
      omega
    have hhead' : p.thread.dropsOf g = [.finalize g gen.pendingRemoves gen.nextGen] := by
      rw [dropsOf_of_cons hdrops rfl, hnil]
    have hrecords : (c.place t p).records = c.records.set g ⟨gen.pendingRemoves, false⟩ := by
      rw [Config.records, Config.place, hgens, List.map_set]
      rfl
    refine .flight (r := ⟨gen.pendingRemoves, false⟩) ?_ rfl ?_
      ((threadAt_place ht).mpr (Or.inl ⟨rfl, rfl⟩)) hhead' ?_ ?_
    · rw [hrecords, getElem?_set_of_getElem? hr, if_pos rfl]
    · have hplace := inFlight_place ht p g
      rw [hhead', hself, hnil] at hplace
      simp only [List.length_cons, List.length_nil] at hplace
      omega
    · show Chronicled p.state.log g gen.pendingRemoves []
      rw [Ledger.pendingOf, hr] at hchron
      rw [hlog]
      exact hchron
    · show gen.nextGen = _
      rw [hrecords, List.length_set, Config.records, List.length_map]
      exact hnext
  | flight hr' hdead | done hr' hdead =>
    obtain rfl := Option.some.inj (hr'.symm.trans hr)
    exact absurd (halive.symm.trans hdead) (by simp)

/-- A removal is recorded in generation `g`. -/
theorem record {gen : Gen} (h : c.Stage g) (ht : c.ThreadAt t th)
    (hgen : c.state.gens[g]? = some gen) (halive : gen.alive = true)
    (hgens : p.state.gens =
      c.state.gens.set g { gen with pendingRemoves := gen.pendingRemoves ++ [i] })
    (hlog : p.state.log = c.state.log ++ [.marked g i])
    (hdrops : p.thread.dropsOf g = th.dropsOf g) : (c.place t p).Stage g := by
  have hr : c.records[g]? = some gen.record := getElem?_map_record hgen
  have hrecords : (c.place t p).records =
      c.records.set g { gen.record with pending := gen.record.pending ++ [i] } := by
    rw [Config.records, Config.place, hgens, List.map_set]
    rfl
  cases h with
  | opened hopen hnone hunfinal hchron =>
    refine .opened (fun r' hr' => ?_) ?_ ?_ ?_
    · rw [hrecords, getElem?_set_of_getElem? hr, if_pos rfl] at hr'
      obtain rfl := Option.some.inj hr'
      exact halive
    · have hplace := inFlight_place ht p g
      rw [hdrops] at hplace
      omega
    · show g ∉ p.state.log.filterMap finalizedBy
      rw [hlog, filterMap_concat_of_none rfl]
      exact hunfinal
    · show Chronicled p.state.log g _ []
      rw [hlog, hrecords, Ledger.pendingOf_mark hr, if_pos rfl]
      exact hchron.mark
  | flight hr' hdead | done hr' hdead =>
    obtain rfl := Option.some.inj (hr'.symm.trans hr)
    exact absurd (halive.symm.trans hdead) (by simp)

/-- A new generation. -/
theorem advance (h : c.Stage g) (ht : c.ThreadAt t th)
    (hrecords : (c.place t p).records = c.records ++ [⟨[], true⟩])
    (hnext : (∃ r, c.records[g]? = some r ∧ r.alive = false) → g + 1 < c.records.length)
    (hlog : p.state.log = c.state.log ++ es) (hes : ∀ e ∈ es, e.gen? = none)
    (hpoison : p.state.poisoned = false → c.state.poisoned = false)
    (hdrops : p.thread.dropsOf g = th.dropsOf g) : (c.place t p).Stage g := by
  have hes' : ∀ e ∈ es, e.gen? ≠ some g := fun e he => by simp [hes e he]
  by_cases hg : g = c.records.length
  · cases h with
    | opened hopen hnone hunfinal hchron =>
      refine .opened (fun r hr => ?_) ?_ ?_ ?_
      · rw [hrecords, getElem?_push, if_pos hg] at hr
        obtain rfl := Option.some.inj hr
        rfl
      · have hplace := inFlight_place ht p g
        rw [hdrops] at hplace
        omega
      · show g ∉ p.state.log.filterMap finalizedBy
        rw [hlog]
        exact finalizedBy_append_of_gen? hes' hunfinal
      · show Chronicled p.state.log g _ []
        rw [hlog, hrecords, Ledger.pendingOf_push]
        exact hchron.append hes'
    | flight hr | done hr =>
      have hlt := (List.getElem?_eq_some_iff.mp hr).1
      omega
  · refine h.frame ht ?_ (fun hdead => ?_) hlog hes' hpoison hdrops
    · rw [hrecords, getElem?_push, if_neg hg]
    · have hlt := hnext hdead
      rw [hrecords, List.length_append, List.length_singleton]
      omega

end Config.Stage

/-! ### Moves -/

theorem filter_genFields (next : Option Nat) (g : Nat) :
    (genFields next : List (Drop α)).filter (·.gen? == some g) = [] := by
  cases next <;> rfl

theorem filter_markFor_drops (m : MarkFor) (g : Nat) :
    (m.drops : List (Drop α)).filter (·.gen? == some g) = [] := by
  cases m <;> rfl

theorem filter_unwind {pc : Pc α} (h : pc.waiting = true) (g : Nat) :
    pc.unwind.1.filter (·.gen? == some g) = [] := by
  cases pc with
  | mark m idx => cases m <;> rfl
  | observe | insert x | iterMut clear | vacantEntry => rfl
  | _ => exact absurd h (by simp [Pc.waiting])

/-- A destructor of generation `g` goes on, and the other generations stay where they are. -/
theorem stage_of_go {d : Drop α} {ds : List (Drop α)} {pc : Pc α} {u : Bool} (d' : Drop α)
    (hs : ∀ g, c.Stage g) (ht : c.ThreadAt t ⟨d :: ds, pc, u⟩) (hd : d.gen? = some g)
    (hgens : p.state.gens = c.state.gens) (hdrops : p.thread.drops = d' :: ds)
    (hd' : d'.gen? = some g) (hlog : p.state.log = c.state.log ++ es)
    (hes : ∀ e ∈ es, e.gen? = some g)
    (hpoison : p.state.poisoned = false → c.state.poisoned = false)
    (hchron : d.Chronicled c.state.log → d'.Chronicled p.state.log)
    (hlinked : d.Linked c.records.length → d'.Linked c.records.length) (g' : Nat) :
    (c.place t p).Stage g' := by
  have hrecords : (c.place t p).records = c.records := congrArg (List.map Gen.record) hgens
  by_cases hg : g' = g
  · subst hg
    exact (hs g').go ht hd hrecords hdrops hd' hchron hlinked
  · have hne : some g ≠ some g' := fun h => hg (Option.some.inj h).symm
    refine (hs g').frame ht (by rw [hrecords]) (fun _ => by rw [hrecords]) hlog (fun e he => ?_)
      hpoison ?_
    · rw [hes e he]
      exact hne
    · rw [dropsOf_of_cons_ne hdrops (hd' ▸ hne), dropsOf_of_cons_ne rfl (hd ▸ hne)]

/-- A destructor of generation `g` ends, and the other generations stay where they are. -/
theorem stage_of_finish {d : Drop α} {ds : List (Drop α)} {pc : Pc α} {u : Bool} {lost : List Nat}
    (hs : ∀ g, c.Stage g) (ht : c.ThreadAt t ⟨d :: ds, pc, u⟩) (hd : d.gen? = some g)
    (hstate : p.state = c.state)
    (hdrops : ∀ g', p.thread.dropsOf g' = ds.filter (·.gen? == some g'))
    (hchron : d.Chronicled c.state.log → Chronicled c.state.log g lost [])
    (hlost : c.state.poisoned = false → lost = []) (g' : Nat) : (c.place t p).Stage g' := by
  have hrecords : (c.place t p).records = c.records := by
    rw [Config.records, Config.place, hstate, Config.records]
  by_cases hg : g' = g
  · subst hg
    exact (hs g').finish ht hd hrecords (hdrops g') (hstate ▸ hchron) (hstate ▸ hlost)
  · have hne : some g ≠ some g' := fun h => hg (Option.some.inj h).symm
    have hlog : p.state.log = c.state.log ++ [] := by rw [hstate, List.append_nil]
    refine (hs g').quiet ht hrecords hlog (by simp)
      (hstate ▸ id) ?_
    rw [hdrops, dropsOf_of_cons_ne rfl (hd ▸ hne)]

/-- A step that is about no generation and leaves the log as it is. -/
theorem stage_of_still (hs : ∀ g, c.Stage g) (ht : c.ThreadAt t th)
    (hrecords : (c.place t p).records = c.records) (hlog : p.state.log = c.state.log)
    (hpoison : p.state.poisoned = false → c.state.poisoned = false)
    (hdrops : ∀ g, p.thread.dropsOf g = th.dropsOf g) (g : Nat) : (c.place t p).Stage g :=
  (hs g).quiet ht hrecords (hlog.trans (List.append_nil _).symm) (by simp) hpoison (hdrops g)

theorem record_release {gen : Gen} (hmore : 1 < gen.strong) :
    Gen.record { gen with strong := gen.strong - 1 } = gen.record := by
  have hpos : gen.strong ≠ 0 := by omega
  have hpos' : gen.strong - 1 ≠ 0 := by omega
  simp only [Gen.record, Gen.alive, bne_iff_ne.mpr hpos, bne_iff_ne.mpr hpos']

/-- **Stages.** Every move keeps them. A generation goes from being alive to the one thread that
runs its destructor, and from there to being gone; and at each stage its events are those that its
removals, and the items that its destructor has in its hands, say. -/
theorem Move.stage (h : Move c t th p) (hi : ThreadInv c) (ht : c.ThreadAt t th)
    (hs : ∀ g, c.Stage g) (g : Nat) : (c.place t p).Stage g := by
  have hpoison : p.state.poisoned = false → c.state.poisoned = false := by
    intro hp
    by_contra hne
    exact absurd (hp.symm.trans (h.poisoned (Bool.not_eq_false _ ▸ hne))) (by simp)
  cases h with
  | storage hmore | writer hmore | writerLast hlast =>
    exact stage_of_still hs ht rfl rfl hpoison (fun _ => rfl) g
  | @storageLast ds pc u items hlast hitems =>
    refine (hs g).quiet ht rfl rfl (fun e he => ?_) hpoison rfl
    rcases List.mem_cons.mp he with rfl | he
    · rfl
    · obtain ⟨p, -, rfl⟩ := List.mem_map.mp he
      rfl
  | gen hgen hmore =>
    refine stage_of_still hs ht ?_ rfl hpoison (fun _ => rfl) g
    exact map_record_set hgen (record_release hmore)
  | @genLast ds pc u k gen hgen hlast =>
    have halive : gen.alive = true := by simp [Gen.alive, hlast]
    by_cases hg : g = k
    · subst hg
      exact (hs g).die ht hgen halive (hi.refs.nextGen g gen hgen) rfl rfl rfl
    · refine (hs g).frame ht ?_ (fun _ => ?_) (List.append_nil _).symm (by simp) hpoison
        ?_
      · simp only [Config.records, Config.place, List.map_set]
        rw [List.getElem?_set_ne (Ne.symm hg)]
      · simp only [Config.records, Config.place, List.length_map, List.length_set]
      · have hne : some k ≠ some g := fun h => hg (Option.some.inj h).symm
        have hrest : Thread.dropsOf g ⟨.finalize k gen.pendingRemoves gen.nextGen :: ds, pc, u⟩ =
            ds.filter (·.gen? == some g) := dropsOf_of_cons_ne rfl hne
        exact hrest
  | @finalize ds pc u k indices next hlocked hpoisoned =>
    exact stage_of_go (.finalizing k indices [] next) hs ht rfl rfl rfl rfl
      (List.append_nil _).symm (by simp) hpoison (fun h => h) (fun h => h) g
  | @leak ds pc k indices next hpoisoned =>
    have hnil := (Pc.refs_of_quiet
      ((hi.iteration.threads t _ ht).dropping (List.cons_ne_nil _ _))).1
    refine stage_of_finish hs ht rfl rfl (fun g' => ?_) (fun h => h)
      (fun hp => absurd (hpoisoned.symm.trans hp) (by simp)) g
    simp only [Thread.dropsOf, hnil, List.append_nil, List.filter_append, filter_genFields,
      List.nil_append]
  | @finalizing ds pc u k idx indices items next x cslab hfinalize =>
    exact stage_of_go (.finalizing k indices (items ++ [(idx, x)]) next) hs ht rfl rfl rfl rfl rfl
      (by simp [Event.gen?]) hpoison RcuCslab.Chronicled.finalize (fun h => h) g
  | @finalized ds pc u k items next =>
    exact stage_of_go (.items k items next) hs ht rfl rfl rfl rfl (List.append_nil _).symm
      (by simp) hpoison (fun h => h) (fun h => h) g
  | @dropItem ds pc u k idx x items next =>
    exact stage_of_go (.items k items next) hs ht rfl rfl rfl rfl rfl (by simp [Event.gen?])
      hpoison RcuCslab.Chronicled.destroy (fun h => h) g
  | dropFields =>
    refine stage_of_finish hs ht rfl rfl (fun g' => ?_) (fun h => h) (fun _ => rfl) g
    simp only [Thread.dropsOf, List.filter_append, filter_genFields, List.nil_append]
  | @unwind pc log hpc hpoisoned hlog =>
    have hdrops : ∀ g, (⟨pc.unwind.1, pc.unwind.2, true⟩ : Thread α).dropsOf g = [] :=
      filter_unwind hpc
    rcases hlog with rfl | ⟨x, -, rfl⟩
    · exact stage_of_still hs ht rfl rfl hpoison hdrops g
    · exact (hs g).quiet ht rfl rfl (by simp [Event.gen?]) hpoison (hdrops g)
  | insert hinsert | reject =>
    exact (hs g).quiet ht rfl rfl (by simp [Event.gen?]) hpoison rfl
  | @record u m idx k gen htarget hgen halive =>
    have hdrops : ∀ g, (⟨m.drops, m.next, u⟩ : Thread α).dropsOf g = [] := filter_markFor_drops m
    by_cases hg : g = k
    · subst hg
      exact (hs g).record ht hgen halive rfl rfl (hdrops g)
    · refine (hs g).frame ht ?_ (fun _ => ?_) rfl ?_ hpoison (hdrops g)
      · simp only [Config.records, Config.place, List.map_set]
        rw [List.getElem?_set_ne (Ne.symm hg)]
      · simp only [Config.records, Config.place, List.length_map, List.length_set]
      · simp [Event.gen?, Ne.symm hg]
  | clearNext hslab him hnext hgen halive =>
    refine stage_of_still hs ht ?_ rfl hpoison (fun _ => rfl) g
    exact map_record_set hgen (record_acquire halive)
  | @advance pc pc' u slab gen im hpc him hslab hgen =>
    have hlast := hi.refs.curGen slab hslab
    have hrecords : Config.records (c.place t ⟨{ c.state.nextGeneration slab gen with
        iterMut := im }, c.vacant, ⟨[.gen slab.curGen], pc', u⟩⟩) = c.records ++ [⟨[], true⟩] := by
      have hsame : (c.state.gens.set slab.curGen { gen with
          nextGen := some c.state.gens.length }).map Gen.record = c.state.gens.map Gen.record :=
        map_record_set hgen rfl
      simp only [Config.records, Config.place, State.nextGeneration, List.map_append, hsame]
      rfl
    have hlength : c.records.length = c.state.gens.length := List.length_map _
    refine (hs g).advance ht hrecords ?_ rfl (by simp [Event.gen?]) hpoison rfl
    rintro ⟨r, hr, hdead⟩
    have hcur : c.records[slab.curGen]? = some gen.record := getElem?_map_record hgen
    have halive := (hi.refs.alive_of_slab hslab)
    have hlt := (List.getElem?_eq_some_iff.mp hr).1
    have hne : g ≠ slab.curGen := by
      rintro rfl
      obtain ⟨x, hx, hxalive⟩ := halive
      obtain rfl := Option.some.inj (hr.symm.trans (getElem?_map_record hx))
      exact absurd (hxalive.symm.trans hdead) (by simp)
    omega
  | newReader hkind hgen halive =>
    refine stage_of_still hs ht ?_ rfl hpoison (fun _ => rfl) g
    exact map_record_set hgen (record_acquire halive)
  | iterNext hiterable hslab him hnext hgen halive =>
    refine stage_of_still hs ht ?_ rfl hpoison (fun _ => rfl) g
    exact map_record_set hgen (record_acquire halive)
  | dropSlab husable hslab => exact stage_of_still hs ht rfl rfl hpoison (fun _ => rfl) g
  | entryDrop hk => exact stage_of_still hs ht rfl rfl hpoison (fun _ => rfl) g
  | readerDrop hk => exact stage_of_still hs ht rfl rfl hpoison (fun _ => rfl) g
  | _ => exact stage_of_still hs ht rfl rfl hpoison (fun _ => rfl) g

/-- While the destructor of a generation is in progress, the later generations are alive: it has not
yet dropped its reference to the next one. So no two generations finalize at the same time. -/
theorem alive_of_linked {d : Drop α} {ds : List (Drop α)} {pc : Pc α} {u : Bool}
    (hi : ThreadInv c) (ht : c.ThreadAt t ⟨d :: ds, pc, u⟩) (hd : d.gen? = some g)
    (hlinked : d.Linked c.records.length) {g' : Nat} (hlt : g < g')
    (hlen : g' < c.records.length) : Alive c.state.gens g' := by
  have hlength : c.records.length = c.state.gens.length := List.length_map _
  have hrefs : 0 < d.genRefs (g + 1) := by
    have hnext : g + 1 < c.records.length := by omega
    cases d with
    | finalize k indices next | finalizing k indices items next | items k items next =>
      obtain rfl := Option.some.inj hd
      rw [Drop.Linked, if_pos hnext] at hlinked
      rw [hlinked, Drop.genRefs, beq_self_eq_true]
      exact Nat.one_pos
    | _ => exact absurd hd (by simp [Drop.gen?])
  have hpos : 0 < c.genRefs (g + 1) := by
    refine lt_of_lt_of_le ?_ (le_total (w := (Thread.genRefs · (g + 1))) ht)
    simp only [Thread.genRefs, total_cons]
    omega
  exact hi.refs.alive_of_le (hi.refs.alive_of_pos hpos) hlt (by omega)

/-- The removals finalized so far are of generations that are no longer alive. -/
theorem Config.Stage.dead_of_mem (h : c.Stage g) (hmem : g ∈ c.state.log.filterMap finalizedBy) :
    g < c.records.length ∧ ¬Alive c.state.gens g := by
  have hdead : ∀ r, c.records[g]? = some r → r.alive = false →
      g < c.records.length ∧ ¬Alive c.state.gens g := by
    rintro r hr hdead
    refine ⟨(List.getElem?_eq_some_iff.mp hr).1, ?_⟩
    rintro ⟨gen, hgen, halive⟩
    obtain rfl := Option.some.inj (hr.symm.trans (getElem?_map_record hgen))
    exact absurd (halive.symm.trans hdead) (by simp)
  cases h with
  | opened _ _ hunfinal => exact absurd hmem hunfinal
  | flight hr hr' => exact hdead _ hr hr'
  | done hr hr' => exact hdead _ hr hr'

/-- **Order.** A generation finalizes a removal when all later ones are alive, since it owns a
reference to the next one until its destructor has ended. So the events come in the order of the
generations. -/
theorem Move.sorted (h : Move c t th p) (hi : ThreadInv c) (ht : c.ThreadAt t th)
    (hc : c.Chronicle) : (p.state.log.filterMap finalizedBy).Pairwise (· ≤ ·) := by
  cases h with
  | @finalizing ds pc u g idx indices items next x cslab hfinalize =>
    simp only
    rw [filterMap_concat_of_some (f := finalizedBy) rfl, List.pairwise_append]
    refine ⟨hc.sorted, List.pairwise_singleton _ _, fun g' hg' k hk => ?_⟩
    obtain rfl := List.mem_singleton.mp hk
    by_contra hlt
    have hhead : Thread.dropsOf k ⟨.finalizing k (idx :: indices) items next :: ds, pc, u⟩ =
        _ :: ds.filter (·.gen? == some k) := dropsOf_of_cons rfl rfl
    obtain ⟨-, -, -, -, hlinked⟩ := (hc.stage k).of_dropsOf ht hhead
    obtain ⟨hlen, hdead⟩ := (hc.stage g').dead_of_mem hg'
    exact hdead (alive_of_linked hi ht rfl hlinked (Nat.lt_of_not_le hlt) hlen)
  | @storageLast ds pc u items hlast hitems =>
    have hnil : (Event.storageDropped :: items.map fun p =>
        Event.destroyed (.storage p.1) p.2 false).filterMap finalizedBy = [] := by
      refine List.filterMap_eq_nil_iff.mpr fun e he => ?_
      rcases List.mem_cons.mp he with rfl | he
      · rfl
      · obtain ⟨p, -, rfl⟩ := List.mem_map.mp he
        rfl
    simp only
    rw [List.filterMap_append, hnil, List.append_nil]
    exact hc.sorted
  | unwind hpc hpoisoned hlog =>
    rcases hlog with rfl | ⟨x, -, rfl⟩
    · exact hc.sorted
    · simp only
      rw [filterMap_concat_of_none rfl]
      exact hc.sorted
  | dropItem | insert hinsert | reject | record htarget hgen halive =>
    simp only
    rw [filterMap_concat_of_none rfl]
    exact hc.sorted
  | advance hpc him hslab hgen =>
    simp only [State.nextGeneration]
    rw [filterMap_concat_of_none rfl]
    exact hc.sorted
  | _ => exact hc.sorted

theorem Move.chronicle (h : Move c t th p) (hi : ThreadInv c) (ht : c.ThreadAt t th)
    (hc : c.Chronicle) : (c.place t p).Chronicle :=
  ⟨h.stage hi ht hc.stage, h.sorted hi ht hc⟩

theorem chronicle_of_new {s : State α} {n : Nat} (hgens : s.gens = [⟨1, [], none⟩])
    (hlog : s.log = []) : Config.Chronicle ⟨s, none, .replicate n ⟨[], .idle, false⟩⟩ := by
  refine ⟨fun g => .opened (fun r hr => ?_) (total_replicate rfl) ?_ ?_, ?_⟩
  · have hmem := List.mem_of_getElem? hr
    rw [Config.records, hgens] at hmem
    obtain rfl := List.mem_singleton.mp hmem
    rfl
  · simp [hlog]
  · have hpending : Ledger.pendingOf (Config.records ⟨s, none, .replicate n ⟨[], .idle, false⟩⟩) g
        = [] := by
      simp only [Config.records, hgens]
      cases g <;> rfl
    rw [hpending, hlog]
    exact ⟨rfl, rfl⟩
  · simp [hlog]

theorem Stepped.chronicle {c' : Config α} {l : Label α} (h : Stepped c l c') (hi : ThreadInv c)
    (hc : c.Chronicle) : c'.Chronicle := by
  cases h with
  | stays => exact hc
  | aborts hpoison =>
    refine ⟨fun g => ?_, hc.sorted⟩
    cases hc.stage g with
    | opened hopen hnone hunfinal hlog => exact .opened hopen hnone hunfinal hlog
    | flight hr hdead hone ht hd hlog hlinked => exact .flight hr hdead hone ht hd hlog hlinked
    | done hr hdead hnone hlog hlost => exact .done hr hdead hnone hlog hlost
  | moves ht hmove hl => exact hmove.chronicle hi ht hc

variable {l : Layout} {capacity n : Nat} {c₀ : Config α} {labels : List (Label α)}

/-- **The events of the generations after every interleaving** are in the order of the generations,
and those of each generation are as its stage says. By induction on the steps. -/
theorem chronicle_of_interleaving (hnew : Config.withFixedCapacity .memory l capacity n = .ok c₀)
    (hrun : Interleaving c₀ labels c) : c.Chronicle := by
  have hinit : c₀.Chronicle := by
    obtain ⟨s, hs, hret⟩ := except_bind_eq_ok.mp hnew
    obtain rfl := Except.ok.inj hret
    obtain ⟨cslab, -, hret⟩ := except_bind_eq_ok.mp hs
    obtain rfl := Except.ok.inj hret
    exact chronicle_of_new rfl rfl
  have hboth : ThreadInv c ∧ c.Chronicle := by
    refine Steps.invariant (P := fun c => ThreadInv c ∧ c.Chronicle) ?_ hrun
      ⟨threadInv_withFixedCapacity hnew, hinit⟩
    rintro c label c' ⟨hi, hc⟩ hstep
    obtain ⟨c'', hok, hstepped⟩ := step_cases hi hstep
    obtain rfl := Except.ok.inj hok
    exact ⟨hstepped.inv hi, hstepped.chronicle hi hc⟩
  exact hboth.2

/-! ### What every interleaving does with the removals -/

/-- What a generation has still to finalize and to destroy: at any time the log of a generation is
completed by some lists, so what is in the log is in order. -/
theorem Config.Stage.exists_chronicled (h : c.Stage g) :
    ∃ indices items, Chronicled c.state.log g indices items := by
  cases h with
  | opened _ _ _ hlog => exact ⟨_, _, hlog⟩
  | @flight r t th d hr hdead hone ht hd hlog hlinked =>
    have hgen := gen?_of_dropsOf hd
    cases d with
    | finalize g' indices next | finalizing g' indices items next | items g' items next =>
      obtain rfl := Option.some.inj hgen
      exact ⟨_, _, hlog⟩
    | _ => exact absurd hgen (by simp [Drop.gen?])
  | done _ _ _ hlog => exact ⟨_, _, hlog⟩

theorem Config.Stage.chronicled_of_gone (h : c.Stage g) (hlen : g < c.state.gens.length)
    (hdead : ¬Alive c.state.gens g) (hflight : c.inFlight g = 0)
    (hpoison : c.state.poisoned = false) : Chronicled c.state.log g [] [] := by
  cases h with
  | opened hopen hnone hunfinal hlog =>
    obtain ⟨gen, hgen⟩ : ∃ gen, c.state.gens[g]? = some gen := ⟨_, List.getElem?_eq_getElem hlen⟩
    exact absurd ⟨gen, hgen, hopen _ (getElem?_map_record hgen)⟩ hdead
  | flight hr hdead hone => exact absurd (hflight.symm.trans hone) (by simp)
  | done hr hdead hnone hlog hlost =>
    rw [← hlost hpoison]
    exact hlog

/-- **Finalization in order.** Whatever the threads do, the removals are finalized generation by
generation, each generation finalizes the removals marked in it in the order of their marks and
destroys the items in the order in which it took them out; and when its destructor has ended, it has
finalized and destroyed all of them, unless the mutex is poisoned. -/
theorem finalized_in_order (hnew : Config.withFixedCapacity .memory l capacity n = .ok c₀)
    (hrun : Interleaving c₀ labels c) :
    (c.state.log.filterMap finalizedBy).Pairwise (· ≤ ·) ∧
      ∀ g, c.state.log.filterMap (finalizedIn g) <+: c.state.log.filterMap (markedIn g) ∧
        c.state.log.filterMap (destroyedBy g) <+: c.state.log.filterMap (takenBy g) ∧
        (g ∈ c.state.log.filterMap finalizedBy → ¬Alive c.state.gens g) ∧
        (g < c.state.gens.length → ¬Alive c.state.gens g → c.inFlight g = 0 →
          c.state.poisoned = false →
          c.state.log.filterMap (finalizedIn g) = c.state.log.filterMap (markedIn g) ∧
            c.state.log.filterMap (destroyedBy g) = c.state.log.filterMap (takenBy g)) := by
  have hc := chronicle_of_interleaving hnew hrun
  refine ⟨hc.sorted, fun g => ?_⟩
  obtain ⟨indices, items, hlog⟩ := (hc.stage g).exists_chronicled
  refine ⟨⟨indices, hlog.marked.symm⟩, ⟨items, hlog.taken.symm⟩,
    fun hmem => ((hc.stage g).dead_of_mem hmem).2, fun hlen hdead hflight hpoison => ?_⟩
  have hgone := (hc.stage g).chronicled_of_gone hlen hdead hflight hpoison
  rw [hgone.marked, hgone.taken, List.append_nil, List.append_nil]
  exact ⟨rfl, rfl⟩

/-- A thread has finalized the first of two removals of a generation. -/
theorem finalized_in_order_first :
    ∃ (c₀ c : Config Nat) (labels : List (Label Nat)),
      Config.withFixedCapacity .memory ⟨4, 4⟩ 2 2 = .ok c₀ ∧ Interleaving c₀ labels c ∧
      c.inFlight 0 = 1 ∧ c.state.log.filterMap (finalizedIn 0) = [0] ∧
      c.state.log.filterMap (markedIn 0) = [0, 1] ∧
      c.state.log.filterMap (finalizedIn 0) <+: c.state.log.filterMap (markedIn 0) := by
  obtain ⟨c₀, c, hnew, hrun, hc⟩ := exists_interleaving_of_observe (α := Nat) (t := ⟨4, 4⟩)
    (n := 2) (f := fun c => (c.inFlight 0, c.state.log.filterMap (finalizedIn 0),
      c.state.log.filterMap (markedIn 0)))
    (show Config.observe ⟨4, 4⟩ 2 2 [.invoke 0 (.insert 7), .exec 0, .exec 0, .exec 0,
      .invoke 0 (.insert 8), .exec 0, .exec 0, .exec 0, .invoke 0 .reader,
      .invoke 0 (.markRemoved 0), .exec 0, .exec 0, .exec 0, .exec 0, .invoke 0 (.remove 1),
      .exec 0, .exec 0, .exec 0, .exec 0, .exec 0, .exec 0, .exec 0, .invoke 1 (.readerDrop 0),
      .exec 1, .exec 1, .exec 1, .exec 1] _ = some (1, [0], [0, 1]) by decide)
  simp only [Prod.mk.injEq] at hc
  exact ⟨c₀, c, _, hnew, hrun, hc.1, hc.2.1, hc.2.2, ((finalized_in_order hnew hrun).2 0).1⟩

end ZprUtils.RcuCslab
