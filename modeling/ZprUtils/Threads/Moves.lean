import ZprUtils.Threads.Invariant

/-!
# What a step of a thread can do

`Move` lists everything that one step of one thread can do to the shared state and to the thread,
in a system with the invariant: the steps of destructors, of calls, and the starts of calls. The
next module shows that every step is a move, so that no step faults; the invariants are shown for
the moves.

## Main definitions

* `Site` — the shared state with one thread.
* `Move` — one step of a thread.
-/

namespace ZprUtils.RcuCslab

variable {α : Type}

/-- The shared state, the holder of the vacant entry, and one thread. -/
structure Site (α : Type) where
  state : State α
  vacant : Option Nat
  thread : Thread α

/-- The system in which thread `t` and the shared state are replaced. -/
def Config.place (c : Config α) (t : Nat) (p : Site α) : Config α :=
  ⟨p.state, p.vacant, c.threads.set t p.thread⟩

/-- Where a call goes on with the mutex held. -/
def Pc.locks : Pc α → Option (Pc α)
  | .observe => some .observed
  | .insert x => some (.insertLocked false x)
  | .mark m idx => some (.markLocked m idx)
  | .iterMut clear => some (.iterMutLocked clear)
  | _ => none

/-- Where a call goes on when it gives the mutex back. -/
def Pc.unlocks : Pc α → Option (Pc α)
  | .observed | .unlock => some .idle
  | .markUnlock m idx => some (.record m idx)
  | .iterMutUnlock clear remaining => some (.startIter clear remaining)
  | _ => none

/-- The calls that wait for the mutex. -/
def Pc.waiting : Pc α → Bool
  | .observe | .insert _ | .mark _ _ | .iterMut _ | .vacantEntry => true
  | _ => false

/-- The first program points of the calls that borrow the slab exclusively. -/
def Pc.entersCall : Pc α → Bool
  | .insert _ | .mark .markRemoved _ | .mark .remove _ | .advance false | .iterMut _
  | .vacantEntry => true
  | _ => false

/-- The place at which `advance_generation` is called, and where the thread goes on. -/
inductive Advances : Pc α → Bool → Pc α → Prop
  | call {u : Bool} : Advances (.advance false) u (.newReader false)
  | dropIter {u : Bool} : Advances (.advance true) u (.ret .iter)
  | clear : Advances .dropIterMut false (.newReader true)
  | unwound : Advances .dropIterMut true (.ret .clear)

/-- One step of thread `t`: the thread before it, and the site after it. -/
inductive Move (c : Config α) (t : Nat) : Thread α → Site α → Prop
  | storage {ds : List (Drop α)} {pc : Pc α} {u : Bool} (hmore : 1 < c.state.storageStrong) :
      Move c t ⟨.storage :: ds, pc, u⟩
        ⟨{ c.state with storageStrong := c.state.storageStrong - 1 }, c.vacant, ⟨ds, pc, u⟩⟩
  | storageLast {ds : List (Drop α)} {pc : Pc α} {u : Bool} {items : List (Nat × α)}
      (hlast : c.state.storageStrong = 1)
      (hitems : Iter.items c.state.cslab.storage = .ok items) :
      Move c t ⟨.storage :: ds, pc, u⟩
        ⟨{ c.state with
            storageStrong := c.state.storageStrong - 1
            log := c.state.log ++ .storageDropped ::
              items.map fun p => .destroyed (.storage p.1) p.2 false }, c.vacant, ⟨ds, pc, u⟩⟩
  | writer {ds : List (Drop α)} {pc : Pc α} {u : Bool} (hmore : 1 < c.state.writerStrong) :
      Move c t ⟨.writer :: ds, pc, u⟩
        ⟨{ c.state with writerStrong := c.state.writerStrong - 1 }, c.vacant, ⟨ds, pc, u⟩⟩
  | writerLast {ds : List (Drop α)} {pc : Pc α} {u : Bool} (hlast : c.state.writerStrong = 1) :
      Move c t ⟨.writer :: ds, pc, u⟩
        ⟨{ c.state with writerStrong := 0 }, c.vacant, ⟨.storage :: ds, pc, u⟩⟩
  | gen {ds : List (Drop α)} {pc : Pc α} {u : Bool} {g : Nat} {gen : Gen}
      (hgen : c.state.gens[g]? = some gen) (hmore : 1 < gen.strong) :
      Move c t ⟨.gen g :: ds, pc, u⟩
        ⟨{ c.state with gens := c.state.gens.set g { gen with strong := gen.strong - 1 } },
          c.vacant, ⟨ds, pc, u⟩⟩
  | genLast {ds : List (Drop α)} {pc : Pc α} {u : Bool} {g : Nat} {gen : Gen}
      (hgen : c.state.gens[g]? = some gen) (hlast : gen.strong = 1) :
      Move c t ⟨.gen g :: ds, pc, u⟩
        ⟨{ c.state with gens := c.state.gens.set g { gen with strong := 0 } }, c.vacant,
          ⟨.finalize g gen.pendingRemoves gen.nextGen :: ds, pc, u⟩⟩
  | finalize {ds : List (Drop α)} {pc : Pc α} {u : Bool} {g : Nat} {indices : List Nat}
      {next : Option Nat} (hlocked : c.state.locked = false)
      (hpoison : c.state.poisoned = false) :
      Move c t ⟨.finalize g indices next :: ds, pc, u⟩
        ⟨{ c.state with locked := true }, c.vacant, ⟨.finalizing g indices [] next :: ds, pc, u⟩⟩
  /-- The mutex is poisoned, and the removals of the generation are forgotten. -/
  | leak {ds : List (Drop α)} {pc : Pc α} {g : Nat} {indices : List Nat} {next : Option Nat}
      (hpoison : c.state.poisoned = true) :
      Move c t ⟨.finalize g indices next :: ds, pc, false⟩
        ⟨c.state, c.vacant, ⟨genFields next ++ ds ++ pc.unwind.1, pc.unwind.2, true⟩⟩
  | finalizing {ds : List (Drop α)} {pc : Pc α} {u : Bool} {g idx : Nat} {indices : List Nat}
      {items : List (Nat × α)} {next : Option Nat} {x : α} {cslab : Cslab α}
      (hfinalize : c.state.cslab.finalizeRemove idx = .ok (x, cslab)) :
      Move c t ⟨.finalizing g (idx :: indices) items next :: ds, pc, u⟩
        ⟨{ c.state with cslab, log := c.state.log ++ [.finalized g idx x] }, c.vacant,
          ⟨.finalizing g indices (items ++ [(idx, x)]) next :: ds, pc, u⟩⟩
  | finalized {ds : List (Drop α)} {pc : Pc α} {u : Bool} {g : Nat} {items : List (Nat × α)}
      {next : Option Nat} :
      Move c t ⟨.finalizing g [] items next :: ds, pc, u⟩
        ⟨{ c.state with locked := false }, c.vacant, ⟨.items g items next :: ds, pc, u⟩⟩
  | dropItem {ds : List (Drop α)} {pc : Pc α} {u : Bool} {g idx : Nat} {x : α}
      {items : List (Nat × α)} {next : Option Nat} :
      Move c t ⟨.items g ((idx, x) :: items) next :: ds, pc, u⟩
        ⟨{ c.state with log := c.state.log ++ [.destroyed (.gen g idx) x false] }, c.vacant,
          ⟨.items g items next :: ds, pc, u⟩⟩
  | dropFields {ds : List (Drop α)} {pc : Pc α} {u : Bool} {g : Nat} {next : Option Nat} :
      Move c t ⟨.items g [] next :: ds, pc, u⟩
        ⟨c.state, c.vacant, ⟨genFields next ++ ds, pc, u⟩⟩
  | lock {pc pc' : Pc α} {u : Bool} (hpc : pc.locks = some pc')
      (hlocked : c.state.locked = false) (hpoison : c.state.poisoned = false) :
      Move c t ⟨[], pc, u⟩ ⟨{ c.state with locked := true }, c.vacant, ⟨[], pc', u⟩⟩
  | full {u : Bool} (hlocked : c.state.locked = false) (hpoison : c.state.poisoned = false) :
      Move c t ⟨[], .vacantEntry, u⟩
        ⟨{ c.state with locked := true }, c.vacant, ⟨[], .unlock, u⟩⟩
  | reserve {u : Bool} (hlocked : c.state.locked = false) (hpoison : c.state.poisoned = false)
      (hkey : c.state.cslab.vacantKey.isSome = true) :
      Move c t ⟨[], .vacantEntry, u⟩ ⟨{ c.state with locked := true }, some t, ⟨[], .idle, u⟩⟩
  /-- The mutex is poisoned; an item that was to be inserted is destroyed. -/
  | unwind {pc : Pc α} {log : List (Event α)} (hpc : pc.waiting = true)
      (hpoison : c.state.poisoned = true)
      (hlog : log = c.state.log ∨
        ∃ x, pc = .insert x ∧ log = c.state.log ++ [.destroyed .rejected x false]) :
      Move c t ⟨[], pc, false⟩
        ⟨{ c.state with log }, c.vacant, ⟨pc.unwind.1, pc.unwind.2, true⟩⟩
  | unlock {pc pc' : Pc α} {u : Bool} (hpc : pc.unlocks = some pc') :
      Move c t ⟨[], pc, u⟩ ⟨{ c.state with locked := false }, c.vacant, ⟨[], pc', u⟩⟩
  | insert {unwrap u : Bool} {x : α} {idx : Nat} {cslab : Cslab α}
      (hinsert : c.state.cslab.insert x = .ok (some idx, cslab)) :
      Move c t ⟨[], .insertLocked unwrap x, u⟩
        ⟨{ c.state with cslab, log := c.state.log ++ [.inserted idx x] }, c.vacant,
          ⟨[], .unlock, u⟩⟩
  | reject {u : Bool} {x : α} :
      Move c t ⟨[], .insertLocked false x, u⟩
        ⟨{ c.state with log := c.state.log ++ [.destroyed .rejected x true] }, c.vacant,
          ⟨[], .unlock, u⟩⟩
  | mark {u : Bool} {m : MarkFor} {idx : Nat} {cslab : Cslab α}
      (hmark : c.state.cslab.markRemoved idx = .ok cslab) :
      Move c t ⟨[], .markLocked m idx, u⟩
        ⟨{ c.state with cslab }, c.vacant, ⟨[], .markUnlock m idx, u⟩⟩
  /-- There is nothing at the index. -/
  | poison {m : MarkFor} {idx : Nat} (hm : m.ofEntry = false)
      (hbit : c.state.cslab.storage.bit idx = false) :
      Move c t ⟨[], .markLocked m idx, false⟩
        ⟨c.state.poison, c.vacant, ⟨[], .ret .call, true⟩⟩
  | record {u : Bool} {m : MarkFor} {idx g : Nat} {gen : Gen}
      (htarget : m.target c.state = some g) (hgen : c.state.gens[g]? = some gen)
      (halive : gen.alive = true) :
      Move c t ⟨[], .record m idx, u⟩
        ⟨{ c.state with
            gens := c.state.gens.set g { gen with pendingRemoves := gen.pendingRemoves ++ [idx] }
            log := c.state.log ++ [.marked g idx] }, c.vacant, ⟨m.drops, m.next, u⟩⟩
  | count {u clear : Bool} :
      Move c t ⟨[], .iterMutLocked clear, u⟩
        ⟨c.state, c.vacant, ⟨[], .iterMutUnlock clear c.state.cslab.len, u⟩⟩
  | startIter {u clear : Bool} {remaining : Nat} :
      Move c t ⟨[], .startIter clear remaining, u⟩
        ⟨{ c.state with iterMut := some ⟨.new c.state.cslab.storage, remaining⟩ }, c.vacant,
          ⟨[], if clear then .clearLoop else .idle, u⟩⟩
  | exhaust {u : Bool} {im : IterMut} {it : Iter} (him : c.state.iterMut = some im)
      (hnext : im.iter.advance c.state.cslab.storage .front = .ok (none, it)) :
      Move c t ⟨[], .clearLoop, u⟩
        ⟨{ c.state with iterMut := some { im with iter := it } }, c.vacant,
          ⟨[], .dropIterMut, u⟩⟩
  | clearNext {u : Bool} {slab : Slab} {im : IterMut} {idx : Nat} {x : α} {it : Iter} {gen : Gen}
      (hslab : c.state.slab = some slab) (him : c.state.iterMut = some im)
      (hnext : im.iter.advance c.state.cslab.storage .front = .ok (some (idx, x), it))
      (hgen : c.state.gens[slab.curGen]? = some gen) (halive : gen.alive = true) :
      Move c t ⟨[], .clearLoop, u⟩
        ⟨{ c.state with
            iterMut := some ⟨it, im.remaining - 1⟩
            gens := c.state.gens.set slab.curGen { gen with strong := gen.strong + 1 } },
          c.vacant, ⟨[], .mark (.clear slab.curGen) idx, u⟩⟩
  | advance {pc pc' : Pc α} {u : Bool} {slab : Slab} {gen : Gen} {im : Option IterMut}
      (hpc : Advances pc u pc') (him : im = if pc.iterating then none else c.state.iterMut)
      (hslab : c.state.slab = some slab) (hgen : c.state.gens[slab.curGen]? = some gen) :
      Move c t ⟨[], pc, u⟩
        ⟨{ c.state.nextGeneration slab gen with iterMut := im }, c.vacant,
          ⟨[.gen slab.curGen], pc', u⟩⟩
  | newReader {pc : Pc α} {u : Bool} {g : Nat} {gen : Gen}
      (hg : (∃ slab, c.state.slab = some slab ∧ slab.curGen = g) ∧
          ((∃ clear, pc = .newReader clear) ∨ pc = .idle ∧ c.sharable = true) ∨
        pc = .idle ∧ ∃ k r, HandleAt c.state.readers k r ∧ r.gen = g)
      (hgen : c.state.gens[g]? = some gen) (halive : gen.alive = true) :
      Move c t ⟨[], pc, u⟩ ⟨c.state.withReader g gen, c.vacant, ⟨[], .idle, u⟩⟩
  | ret {u : Bool} {b : Borrow} :
      Move c t ⟨[], .ret b, u⟩ ⟨c.state, c.vacant, ⟨[], .idle, u⟩⟩
  | observe {u : Bool} (hsharable : c.sharable = true) :
      Move c t ⟨[], .idle, u⟩ ⟨c.state, c.vacant, ⟨[], .observe, false⟩⟩
  | enter {pc : Pc α} {u : Bool} (husable : c.usable = true) (hpc : pc.entersCall = true) :
      Move c t ⟨[], .idle, u⟩ ⟨c.state, c.vacant, ⟨[], pc, false⟩⟩
  | dropSlab {u : Bool} {slab : Slab} (husable : c.usable = true)
      (hslab : c.state.slab = some slab) :
      Move c t ⟨[], .idle, u⟩
        ⟨{ c.state with slab := none }, c.vacant,
          ⟨[.writer, .storage, .gen slab.curGen], .idle, false⟩⟩
  | fillVacant {u : Bool} {x : α} (hv : c.vacant = some t) :
      Move c t ⟨[], .idle, u⟩ ⟨c.state, none, ⟨[], .insertLocked true x, false⟩⟩
  | dropVacant {u : Bool} (hv : c.vacant = some t) :
      Move c t ⟨[], .idle, u⟩ ⟨c.state, none, ⟨[], .unlock, false⟩⟩
  | panicVacant {u : Bool} (hv : c.vacant = some t) :
      Move c t ⟨[], .idle, u⟩ ⟨c.state.poison, none, ⟨[], .idle, u⟩⟩
  | iterNone {u : Bool} {e : IterEnd} {im : IterMut} {it : Iter} (hiterable : c.iterable = true)
      (him : c.state.iterMut = some im)
      (hnext : im.iter.advance c.state.cslab.storage e = .ok (none, it)) :
      Move c t ⟨[], .idle, u⟩
        ⟨{ c.state with iterMut := some { im with iter := it } }, c.vacant, ⟨[], .idle, u⟩⟩
  | iterNext {u : Bool} {e : IterEnd} {slab : Slab} {im : IterMut} {idx : Nat} {x : α} {it : Iter}
      {gen : Gen} (hiterable : c.iterable = true) (hslab : c.state.slab = some slab)
      (him : c.state.iterMut = some im)
      (hnext : im.iter.advance c.state.cslab.storage e = .ok (some (idx, x), it))
      (hgen : c.state.gens[slab.curGen]? = some gen) (halive : gen.alive = true) :
      Move c t ⟨[], .idle, u⟩
        ⟨{ c.state with
            iterMut := some ⟨it, im.remaining - 1⟩
            gens := c.state.gens.set slab.curGen { gen with strong := gen.strong + 1 }
            entries := c.state.entries ++ [some ⟨idx, x, slab.curGen⟩] }, c.vacant,
          ⟨[], .idle, u⟩⟩
  | iterDrop {u : Bool} (hiterable : c.iterable = true) (him : c.state.iterMut.isSome = true) :
      Move c t ⟨[], .idle, u⟩
        ⟨{ c.state with iterMut := none }, c.vacant, ⟨[], .advance true, false⟩⟩
  | entryRemove {u : Bool} {k : Nat} {e : Entry α} (hk : HandleAt c.state.entries k e) :
      Move c t ⟨[], .idle, u⟩
        ⟨{ c.state with entries := c.state.entries.set k none }, c.vacant,
          ⟨[], .mark (.entry e.gen) e.idx, false⟩⟩
  | entryDrop {u : Bool} {k : Nat} {e : Entry α} (hk : HandleAt c.state.entries k e) :
      Move c t ⟨[], .idle, u⟩
        ⟨{ c.state with entries := c.state.entries.set k none }, c.vacant,
          ⟨[.gen e.gen], .ret .iter, false⟩⟩
  | readerDrop {u : Bool} {k : Nat} {r : Reader} (hk : HandleAt c.state.readers k r) :
      Move c t ⟨[], .idle, u⟩
        ⟨{ c.state with readers := c.state.readers.set k none }, c.vacant,
          ⟨[.storage, .gen r.gen], .idle, false⟩⟩
  | setIters {u : Bool} {k : Nat} {r : Reader} {iters : List Iter}
      (hk : HandleAt c.state.readers k r)
      (htail : ∀ it ∈ iters, it.tail ≤ c.state.cslab.storage.size) :
      Move c t ⟨[], .idle, u⟩
        ⟨{ c.state with readers := c.state.readers.set k (some { r with iters }) }, c.vacant,
          ⟨[], .idle, u⟩⟩

end ZprUtils.RcuCslab
