import ZprUtils.RcuCslab.Invariant

/-!
# The actions of the RCU slab

Every call is a sequence of a few kinds of actions, which say all that a call can do to the state:
an insertion, a mark, the creation and the drop of a handle, a new generation, and the release of
a reference. An action also moves references between the state and the running call. Invariants are
shown for the actions, and hold for the calls because of the next modules.

## Main definitions

* `Release` — the release of a reference that the running call owns.
* `Action` — one action, with the references owned by the call before and after it.
* `Poison` — the effect of a panic of the thread that holds the mutex.
-/

namespace ZprUtils.RcuCslab

variable {α : Type}

theorem State.usable_iff {s : State α} :
    s.usable = true ↔ s.slab.isSome = true ∧ s.Unborrowed := by
  have hentries : (s.entries.all fun o => o.isNone) = true ↔ ∀ k e, ¬HandleAt s.entries k e := by
    rw [List.all_eq_true]
    constructor
    · intro h k e hk
      exact absurd (h _ hk.mem) (by simp)
    · intro h o ho
      cases o with
      | none => rfl
      | some e =>
        obtain ⟨k, hk⟩ := exists_handleAt ho
        exact absurd hk (h k e)
  simp only [State.usable, State.Unborrowed, Bool.and_eq_true, Bool.not_eq_true', hentries,
    Option.isNone_iff_eq_none, and_assoc]

/-- The iterator `it'` has what is left of `it`. -/
def Iter.Shrinks (it it' : Iter) : Prop := it.head ≤ it'.head ∧ it'.tail ≤ it.tail

/-- The release of a reference that the call owns. -/
inductive Release : Held × State α → Held × State α → Prop
  | writer {s : State α} {gen : Option Nat} {storage : Bool} (hmore : 1 < s.writerStrong) :
      Release (⟨gen, true, storage⟩, s)
        (⟨gen, false, storage⟩, { s with writerStrong := s.writerStrong - 1 })
  | writerLast {s : State α} {gen : Option Nat} (hlast : s.writerStrong = 1) :
      Release (⟨gen, true, false⟩, s) (⟨gen, false, true⟩, { s with writerStrong := 0 })
  | storage {s : State α} {gen : Option Nat} (hmore : 1 < s.storageStrong) :
      Release (⟨gen, false, true⟩, s)
        (⟨gen, false, false⟩, { s with storageStrong := s.storageStrong - 1 })
  | storageLast {s : State α} {gen : Option Nat} {items : List (Nat × α)}
      (hlast : s.storageStrong = 1) (hitems : Iter.items s.cslab.storage = .ok items) :
      Release (⟨gen, false, true⟩, s) (⟨gen, false, false⟩, { s with
        storageStrong := 0
        log := s.log ++ .storageDropped ::
          items.map fun p => .destroyed (.storage p.1) p.2 s.locked })
  | gen {s : State α} {g : Nat} {gen : Gen} (hgen : s.gens[g]? = some gen)
      (hmore : 1 < gen.strong) :
      Release (⟨some g, false, false⟩, s)
        ({}, { s with gens := s.gens.set g { gen with strong := gen.strong - 1 } })
  | finalizeGen {s : State α} {g : Nat} {gen : Gen} {c : Cslab α} {items : List α}
      (hgen : s.gens[g]? = some gen) (hlast : gen.strong = 1) (hpoison : s.poisoned = false)
      (hlocked : s.locked = false)
      (hfinalize : finalizeAll gen.pendingRemoves s.cslab = .ok (items, c)) :
      Release (⟨some g, false, false⟩, s) (⟨gen.nextGen, true, false⟩, { s with
        cslab := c
        gens := s.gens.set g { gen with strong := 0 }
        log := s.log ++
          (gen.pendingRemoves.zip items).map (fun p => .finalized g p.1 p.2) ++
          (gen.pendingRemoves.zip items).map (fun p => .destroyed (.gen g p.1) p.2 false) })
  | leakGen {s : State α} {g : Nat} {gen : Gen} (hgen : s.gens[g]? = some gen)
      (hlast : gen.strong = 1) (hpoison : s.poisoned = true) :
      Release (⟨some g, false, false⟩, s)
        (⟨gen.nextGen, true, false⟩, { s with gens := s.gens.set g { gen with strong := 0 } })

/-- One action of a call. -/
inductive Action : Held × State α → Held × State α → Prop
  | insert {s : State α} {c : Cslab α} {i : Nat} {x : α} (husable : s.usable = true)
      (hpoison : s.poisoned = false) (hinsert : s.cslab.insert x = .ok (some i, c)) :
      Action ({}, s) ({}, { s with cslab := c, log := s.log ++ [.inserted i x] })
  | reject {s : State α} {x : α} {locked : Bool} :
      Action ({}, s) ({}, { s with log := s.log ++ [.destroyed .rejected x locked] })
  | mark {s : State α} {slab : Slab} {c : Cslab α} {i : Nat} (husable : s.usable = true)
      (hpoison : s.poisoned = false) (hslab : s.slab = some slab)
      (hmark : s.cslab.markRemoved i = .ok c) :
      Action ({}, s) ({}, { s with
        cslab := c
        gens := s.gens.modify slab.curGen fun gen =>
          { gen with pendingRemoves := gen.pendingRemoves ++ [i] }
        log := s.log ++ [.marked slab.curGen i] })
  | lock {s : State α} (husable : s.usable = true) (hpoison : s.poisoned = false)
      (hkey : s.cslab.vacantKey.isSome = true) :
      Action ({}, s) ({}, { s with locked := true })
  | unlock {s : State α} : Action ({}, s) ({}, { s with locked := false })
  | startIter {s : State α} {remaining : Nat} (husable : s.usable = true)
      (hpoison : s.poisoned = false) :
      Action ({}, s) ({}, { s with iterMut := some ⟨Iter.new s.cslab.storage, remaining⟩ })
  | moveIter {s : State α} {im im' : IterMut} (him : s.iterMut = some im)
      (hshrinks : Iter.Shrinks im.iter im'.iter) :
      Action ({}, s) ({}, { s with iterMut := some im' })
  | yieldEntry {s : State α} {slab : Slab} {im im' : IterMut} {i : Nat} {x : α}
      (hslab : s.slab = some slab) (him : s.iterMut = some im)
      (hshrinks : Iter.Shrinks im.iter im'.iter) (hi : im.iter.head ≤ i ∧ i < im.iter.tail)
      (hi' : ¬(im'.iter.head ≤ i ∧ i < im'.iter.tail)) (hlive : s.cslab.slot i = .live x) :
      Action ({}, s) ({}, { s with
        iterMut := some im'
        gens := s.gens.modify slab.curGen fun gen => { gen with strong := gen.strong + 1 }
        entries := s.entries ++ [some ⟨i, x, slab.curGen⟩] })
  | removeEntry {s : State α} {k : Nat} {e : Entry α} {c : Cslab α} (hk : HandleAt s.entries k e)
      (hmark : s.cslab.markRemoved e.idx = .ok c) :
      Action ({}, s) (⟨some e.gen, false, false⟩, { s with
        cslab := c
        gens := s.gens.modify e.gen fun gen =>
          { gen with pendingRemoves := gen.pendingRemoves ++ [e.idx] }
        entries := s.entries.set k none
        log := s.log ++ [.marked e.gen e.idx] })
  | dropEntry {s : State α} {k : Nat} {e : Entry α} (hk : HandleAt s.entries k e) :
      Action ({}, s) (⟨some e.gen, false, false⟩, { s with entries := s.entries.set k none })
  | advance {s : State α} {slab : Slab} (hslab : s.slab = some slab) (hlocked : s.locked = false)
      (hiter : s.iterMut.isSome = true ∨ ∀ k e, ¬HandleAt s.entries k e) :
      Action ({}, s) (⟨some slab.curGen, false, false⟩, { s with
        writerStrong := s.writerStrong + 1
        gens := (s.gens.modify slab.curGen fun gen =>
          { gen with nextGen := some s.gens.length }) ++ [⟨2, [], none⟩]
        slab := some { slab with curGen := s.gens.length }
        iterMut := none
        log := s.log ++ [.advanced s.gens.length] })
  | addReader {s : State α} {g : Nat}
      (hg : (s.usable = true ∧ ∃ slab, s.slab = some slab ∧ slab.curGen = g) ∨
        ∃ k r, HandleAt s.readers k r ∧ r.gen = g) :
      Action ({}, s) ({}, { s with
        gens := s.gens.modify g fun gen => { gen with strong := gen.strong + 1 }
        storageStrong := s.storageStrong + 1
        readers := s.readers ++ [some ⟨g, []⟩] })
  | setIters {s : State α} {k : Nat} {r : Reader} {iters : List Iter} (hk : HandleAt s.readers k r)
      (htail : ∀ it ∈ iters, it.tail ≤ s.cslab.storage.size) :
      Action ({}, s) ({}, { s with readers := s.readers.set k (some { r with iters }) })
  | dropReader {s : State α} {k : Nat} {r : Reader} (hk : HandleAt s.readers k r) :
      Action ({}, s) (⟨some r.gen, false, true⟩, { s with readers := s.readers.set k none })
  | dropSlab {s : State α} {slab : Slab} (husable : s.usable = true) (hslab : s.slab = some slab) :
      Action ({}, s) (⟨some slab.curGen, true, true⟩, { s with slab := none })
  | abort {s : State α} : Action ({}, s) ({}, { s with aborted := true })
  | release {p q : Held × State α} (hrelease : Release p q) : Action p q

/-- A panic of the thread that holds the mutex. -/
inductive Poison : State α → State α → Prop
  | mk {s : State α} (hslab : s.slab.isSome = true) (hiter : s.iterMut = none)
      (hentries : ∀ k e, ¬HandleAt s.entries k e) :
      Poison s { s with locked := false, poisoned := true }

end ZprUtils.RcuCslab
