import ZprUtils.RcuCslab.Actions

/-!
# Every action keeps the invariant

One lemma for each part of the invariant and each kind of action. The counting arguments are in
`Refs.of_set`, for a change of one strong count together with the handles, `Refs.advance`, for a
new generation, and `Refs.die`, for the drop of a generation.

## Main results

* `Action.inv` — every action keeps the invariant.
-/

namespace ZprUtils.RcuCslab

variable {α : Type} {h h' : Held} {s s' : State α}

/-! ### References -/

/-- A change of nothing that is counted. -/
theorem Refs.congr (hr : Refs h s) (hgens : s'.gens = s.gens) (hslab : s'.slab = s.slab)
    (hreaders : s'.readers = s.readers) (hentries : s'.entries = s.entries)
    (hwriter : s'.writerStrong = s.writerStrong) (hstorage : s'.storageStrong = s.storageStrong) :
    Refs h s' := by
  have hrefs : s'.handleRefs = s.handleRefs := by
    funext j
    simp only [State.handleRefs, hreaders, hentries, hslab]
  constructor
  · rw [hgens]
    exact hr.nextGen
  · rw [hgens, hslab]
    exact hr.curGen
  · rw [hgens, hrefs]
    exact hr.strong
  · rw [hgens, hslab, hwriter]
    exact hr.writer
  · rw [hslab, hwriter, hstorage, State.readerCount, hreaders]
    exact hr.storage

/-- A generation is replaced by one with the same successor. -/
theorem Refs.nextGen_set {g j : Nat} {gen gen' genj : Gen} (hr : Refs h s)
    (hgen : s.gens[g]? = some gen) (hnext : gen'.nextGen = gen.nextGen)
    (hj : (s.gens.set g gen')[j]? = some genj) :
    genj.nextGen = if j + 1 < s.gens.length then some (j + 1) else none := by
  rw [List.getElem?_set] at hj
  by_cases hjg : g = j
  · subst hjg
    simp only [if_true, (List.getElem?_eq_some_iff.mp hgen).1, Option.some.injEq] at hj
    rw [← hj, hnext, hr.nextGen g gen hgen]
  · rw [if_neg hjg] at hj
    exact hr.nextGen j genj hj

/-- A change of one strong count and of the handles, with the books balanced: at the generation
itself against its count, and elsewhere against each other. -/
theorem Refs.of_set {g : Nat} {gen gen' : Gen} (hr : Refs h s) (hgen : s.gens[g]? = some gen)
    (hgens : s'.gens = s.gens.set g gen') (halive : gen'.alive = gen.alive)
    (hnext : gen'.nextGen = gen.nextGen) (hslab : s'.slab = s.slab)
    (hwriter : s'.writerStrong = s.writerStrong) (hheld : h'.writer = h.writer)
    (hself : gen'.strong + s.handleRefs g + (h.gen == some g).toNat =
      gen.strong + s'.handleRefs g + (h'.gen == some g).toNat)
    (hother : ∀ j, j ≠ g → s'.handleRefs j + (h'.gen == some j).toNat =
      s.handleRefs j + (h.gen == some j).toNat)
    (hstorage : s'.storageStrong + s.readerCount + h.storage.toNat =
      s.storageStrong + s'.readerCount + h'.storage.toNat) : Refs h' s' := by
  have hlen : s'.gens.length = s.gens.length := by rw [hgens, List.length_set]
  refine ⟨fun j genj hj => ?_, fun slab hs => ?_, fun j => ?_, ?_, ?_⟩
  · rw [hgens] at hj
    rw [hlen]
    exact hr.nextGen_set hgen hnext hj
  · rw [hlen]
    exact hr.curGen slab (hslab ▸ hs)
  · have hstrong := hr.strong j
    rw [hgens, strongAt_set hgen, predRef_set hgen halive hnext]
    by_cases hjg : j = g
    · subst hjg
      rw [strongAt_of_getElem? hgen] at hstrong
      rw [if_pos rfl]
      omega
    · have hj := hother j hjg
      rw [if_neg hjg]
      omega
  · have hcount := countP_alive_set hgen gen'
    rw [halive] at hcount
    rw [hwriter, hslab, hheld, hgens, hr.writer]
    omega
  · have hsto := hr.storage
    rw [hwriter, hslab]
    omega

/-- References that move between the handles and the running call. -/
theorem Refs.of_moved {g : Nat} {gen gen' : Gen} (hr : Refs h s) (hgen : s.gens[g]? = some gen)
    (hgens : s'.gens = s.gens.set g gen') (hstrong : gen'.strong = gen.strong)
    (hnext : gen'.nextGen = gen.nextGen) (hslab : s'.slab = s.slab)
    (hwriter : s'.writerStrong = s.writerStrong) (hheld : h'.writer = h.writer)
    (hrefs : ∀ j, s'.handleRefs j + (h'.gen == some j).toNat =
      s.handleRefs j + (h.gen == some j).toNat)
    (hstorage : s'.storageStrong + s.readerCount + h.storage.toNat =
      s.storageStrong + s'.readerCount + h'.storage.toNat) : Refs h' s' := by
  have halive : gen'.alive = gen.alive := by rw [Gen.alive, Gen.alive, hstrong]
  have hself := hrefs g
  exact hr.of_set hgen hgens halive hnext hslab hwriter hheld (by omega) (fun j _ => hrefs j)
    hstorage

/-- The drop of a generation passes its reference to the next generation on to the call, which goes
on with it: this is how the cascade of drops is driven. -/
theorem Refs.die {g : Nat} {gen : Gen} (hr : Refs ⟨some g, false, false⟩ s)
    (hgen : s.gens[g]? = some gen) (hlast : gen.strong = 1)
    (hgens : s'.gens = s.gens.set g { gen with strong := 0 }) (hslab : s'.slab = s.slab)
    (hwriter : s'.writerStrong = s.writerStrong) (hstorage : s'.storageStrong = s.storageStrong)
    (hreaders : s'.readers = s.readers) (hentries : s'.entries = s.entries) :
    Refs ⟨gen.nextGen, true, false⟩ s' := by
  have hlen : s'.gens.length = s.gens.length := by rw [hgens, List.length_set]
  have hrefs : s'.handleRefs = s.handleRefs := by
    funext j
    simp only [State.handleRefs, hreaders, hentries, hslab]
  have hone := hr.strong g
  simp only [strongAt_of_getElem? hgen, hlast, beq_self_eq_true, Bool.toNat_true] at hone
  have halive : gen.alive = true := by simp [Gen.alive, hlast]
  -- the only references that change are those to `g` and to its successor
  have hpred : ∀ j, predRef s'.gens j + (gen.nextGen == some j).toNat = predRef s.gens j := by
    intro j
    rw [hgens]
    exact predRef_set_dead hgen halive (hr.nextGen g gen hgen) j
  refine ⟨fun j genj hj => ?_, fun slab hs => ?_, fun j => ?_, ?_, ?_⟩
  · rw [hgens] at hj
    rw [hlen]
    refine hr.nextGen_set hgen ?_ hj
    rfl
  · rw [hlen]
    exact hr.curGen slab (hslab ▸ hs)
  · have hstrong := hr.strong j
    have hj := hpred j
    simp only [hrefs]
    rw [hgens, strongAt_set hgen, ← hgens]
    by_cases hjg : j = g
    · subst hjg
      simp only [if_true]
      omega
    · have hne : ((some g : Option Nat) == some j) = false := by simp [Ne.symm hjg]
      simp only [hne, Bool.toNat_false] at hstrong
      rw [if_neg hjg]
      omega
  · have hcount := countP_alive_set hgen { gen with strong := 0 }
    have hdead : ({ gen with strong := 0 } : Gen).alive = false := rfl
    rw [halive, hdead, Bool.toNat_true, Bool.toNat_false] at hcount
    have hw := hr.writer
    simp only [Bool.toNat_false, Bool.toNat_true] at hw ⊢
    rw [hwriter, hslab, hgens]
    omega
  · have hsto := hr.storage
    simp only [State.readerCount, Bool.toNat_false] at hsto ⊢
    rw [hwriter, hslab, hstorage, hreaders]
    exact hsto

/-- A new generation takes the reference of the slab, and the call has to drop the one to the old
generation. -/
theorem Refs.advance {slab : Slab} {gen : Gen} (hr : Refs {} s) (hslab : s.slab = some slab)
    (hgen : s.gens[slab.curGen]? = some gen)
    (hgens : s'.gens = s.gens.set slab.curGen { gen with nextGen := some s.gens.length } ++
      [⟨2, [], none⟩]) (hslab' : s'.slab = some { slab with curGen := s.gens.length })
    (hwriter : s'.writerStrong = s.writerStrong + 1)
    (hstorage : s'.storageStrong = s.storageStrong) (hreaders : s'.readers = s.readers)
    (hentries : s'.entries = s.entries) : Refs ⟨some slab.curGen, false, false⟩ s' := by
  have hcur := hr.curGen slab hslab
  have hlt := (List.getElem?_eq_some_iff.mp hgen).1
  have halive : gen.alive = true := by
    obtain ⟨gen', hgen', halive⟩ := hr.alive_of_slab hslab
    rwa [Option.some.inj (hgen.symm.trans hgen')]
  have hnext : gen.nextGen = none := by
    rw [hr.nextGen _ _ hgen, if_neg (by omega)]
  have hlen : s'.gens.length = s.gens.length + 1 := by simp [hgens]
  rw [← hcur] at hgens
  refine ⟨fun j genj hj => ?_, fun slab'' hs => ?_, fun j => ?_, ?_, ?_⟩
  · rw [hgens] at hj
    rw [hlen]
    rcases Nat.lt_or_ge j s.gens.length with hjlt | hjge
    · rw [List.getElem?_append_left (by rwa [List.length_set]), List.getElem?_set] at hj
      rw [if_pos (by omega)]
      by_cases hjc : slab.curGen = j
      · subst hjc
        simp only [if_true, hlt, Option.some.injEq] at hj
        rw [← hj]
      · rw [if_neg hjc] at hj
        have hold := hr.nextGen j genj hj
        rwa [if_pos (by omega)] at hold
    · rw [List.getElem?_append_right (by rwa [List.length_set]), List.length_set,
        List.getElem?_singleton] at hj
      split_ifs at hj with hzero
      rw [Option.some.injEq] at hj
      rw [if_neg (by omega), ← hj]
  · rw [hslab', Option.some.injEq] at hs
    rw [hlen, ← hs]
  · have hstrong := hr.strong j
    have hnone : (({} : Held).gen == some j) = false := rfl
    rw [hnone, Bool.toNat_false] at hstrong
    have hrefs : s'.handleRefs j + (slab.curGen == j).toNat =
        s.handleRefs j + (s.gens.length == j).toNat := by
      simp only [State.handleRefs, hreaders, hentries, hslab, hslab', Option.any_some]
      omega
    rw [hgens, strongAt_append, strongAt_set hgen, predRef_append rfl,
      predRef_set_nextGen hgen halive hnext, List.length_set]
    have hself : (if j = slab.curGen then gen.strong else strongAt s.gens j) =
        strongAt s.gens j := by
      split_ifs with hj
      · rw [hj, strongAt_of_getElem? hgen]
      · rfl
    have hcomm : (some slab.curGen == some j) = (slab.curGen == j) := rfl
    simp only [hself, hcomm]
    by_cases hj : j = s.gens.length
    · -- the new generation is referenced by the slab and by the old one
      have hzero : strongAt s.gens j = 0 := by simp [strongAt, hj]
      simp only [hj, hcur, beq_self_eq_true, Bool.toNat_true, if_true] at *
      omega
    · have hne : (s.gens.length == j) = false := by simp [Ne.symm hj]
      have hne' : (j == slab.curGen + 1) = false := by simp [hcur, hj]
      simp only [hne, hne', Bool.toNat_false, if_neg hj] at *
      omega
  · have hcount := countP_alive_set hgen { gen with nextGen := some (slab.curGen + 1) }
    have hw := hr.writer
    have hnew : (⟨2, [], none⟩ : Gen).alive = true := rfl
    have hsame : ({ gen with nextGen := some (slab.curGen + 1) } : Gen).alive = gen.alive := rfl
    rw [hsame] at hcount
    simp only [hwriter, hslab', hgens, List.countP_append, List.countP_singleton, hnew, if_true,
      Option.isSome_some, hslab, Bool.toNat_true, Bool.toNat_false] at hw ⊢
    omega
  · have hsto := hr.storage
    have hw := hr.writer
    have hone : (s.writerStrong != 0) = true := by
      simp only [hslab, Option.isSome_some, Bool.toNat_true] at hw
      simp only [bne_iff_ne, ne_eq]
      omega
    have hone' : (s.writerStrong + 1 != 0) = true := by simp
    simp only [State.readerCount, hwriter, hslab, hslab', hstorage, hreaders, hone, hone',
      Option.isSome_some] at hsto ⊢
    exact hsto

/-- The slab passes its three references on to the call: to the current generation, to the mutex and
to the storage, in the order of its fields. -/
theorem Refs.dropSlab {slab : Slab} (hr : Refs {} s) (hslab : s.slab = some slab) :
    Refs ⟨some slab.curGen, true, true⟩ { s with slab := none } := by
  refine ⟨hr.nextGen, by simp, fun g => ?_, ?_, ?_⟩
  · have hstrong := hr.strong g
    simp only [State.handleRefs, hslab, Option.any_some, Option.none_beq_some, Option.any_none,
      Option.some_beq_some, Bool.toNat_false] at hstrong ⊢
    omega
  · have hw := hr.writer
    simp only [hslab, Option.isSome_some, Option.isSome_none, Bool.toNat_true,
      Bool.toNat_false] at hw ⊢
    omega
  · have hs := hr.storage
    simp only [State.readerCount, hslab, Option.isSome_some, Option.isSome_none, Bool.toNat_true,
      Bool.toNat_false] at hs ⊢
    omega

theorem Refs.releaseWriter {gen : Option Nat} {storage : Bool} (hr : Refs ⟨gen, true, storage⟩ s)
    (hmore : 1 < s.writerStrong) :
    Refs ⟨gen, false, storage⟩ { s with writerStrong := s.writerStrong - 1 } := by
  refine ⟨hr.nextGen, hr.curGen, hr.strong, ?_, ?_⟩
  · have hw := hr.writer
    simp only [Bool.toNat_true, Bool.toNat_false] at hw ⊢
    omega
  · have hs := hr.storage
    have hne : (s.writerStrong != 0) = true := bne_iff_ne.mpr (by omega)
    have hne' : (s.writerStrong - 1 != 0) = true := bne_iff_ne.mpr (by omega)
    simp only [State.readerCount, hne, hne'] at hs ⊢
    exact hs

/-- The last reference to the mutex is dropped together with the slab behind it, which had a
reference to the storage. -/
theorem Refs.releaseWriterLast {gen : Option Nat} (hr : Refs ⟨gen, true, false⟩ s)
    (hlast : s.writerStrong = 1) : Refs ⟨gen, false, true⟩ { s with writerStrong := 0 } := by
  have hw := hr.writer
  simp only [hlast, Bool.toNat_true] at hw
  refine ⟨hr.nextGen, hr.curGen, hr.strong, ?_, ?_⟩
  · simp only [Bool.toNat_false]
    omega
  · have hs := hr.storage
    have hne : (s.writerStrong != 0) = true := bne_iff_ne.mpr (by omega)
    simp only [State.readerCount, hne, bne_self_eq_false, Bool.toNat_true, Bool.toNat_false]
      at hs ⊢
    omega

theorem Refs.releaseStorage {gen : Option Nat} {log : List (Event α)}
    (hr : Refs ⟨gen, false, true⟩ s) :
    Refs ⟨gen, false, false⟩ { s with storageStrong := s.storageStrong - 1, log } := by
  refine ⟨hr.nextGen, hr.curGen, hr.strong, hr.writer, ?_⟩
  have hs := hr.storage
  simp only [State.readerCount, Bool.toNat_true, Bool.toNat_false] at hs ⊢
  omega

/-! ### Removals -/

/-- The removals of a generation are finalized without a fault. By induction on the list: the slots
are distinct, so the earlier finalizations leave the later ones pending. -/
theorem finalizeAll_eq_ok {c : Cslab α} {free : List Nat} (hc : c.Inv free) {indices : List Nat}
    (hnodup : indices.Nodup) (hpending : ∀ i ∈ indices, ∃ x, c.slot i = .pending x) :
    ∃ items c', finalizeAll indices c = .ok (items, c') ∧ c'.Inv (indices.reverse ++ free) ∧
      (∀ j, c'.slot j = if j ∈ indices then .free else c.slot j) ∧
      c'.storage.size = c.storage.size ∧ c'.storage.frontier = c.storage.frontier ∧
      c'.storage.bitmap = c.storage.bitmap ∧ c'.inUse = c.inUse ∧
      c'.allocated + indices.length = c.allocated ∧
      items.length = indices.length ∧
      ∀ p ∈ indices.zip items, c.slot p.1 = .pending p.2 := by
  induction indices generalizing c free with
  | nil =>
    exact ⟨[], c, rfl, by simpa using hc, by simp, rfl, rfl, rfl, rfl, rfl, rfl, by simp⟩
  | cons i indices ih =>
    obtain ⟨hnotin, hnodup⟩ := List.nodup_cons.mp hnodup
    obtain ⟨x, hx⟩ := hpending i List.mem_cons_self
    obtain ⟨c₁, hok₁, hinv₁, hslot₁, hsize₁, hfrontier₁, hbitmap₁, huse₁, halloc₁⟩ :=
      hc.finalizeRemove_eq_ok hx
    have hother : ∀ j ∈ indices, c₁.slot j = c.slot j := by
      intro j hj
      have hji : j ≠ i := fun hji => hnotin (hji ▸ hj)
      rw [hslot₁, Function.update_of_ne hji]
    obtain ⟨items, c', hok, hinv, hslot, hsize, hfrontier, hbitmap, huse, halloc, hlen, hitems⟩ :=
      ih hinv₁ hnodup fun j hj => by
        rw [hother j hj]
        exact hpending j (List.mem_cons_of_mem i hj)
    refine ⟨x :: items, c', ?_, ?_, ?_, hsize.trans hsize₁, hfrontier.trans hfrontier₁,
      hbitmap.trans hbitmap₁, huse.trans huse₁, ?_, by simp [hlen], ?_⟩
    · simp only [finalizeAll, hok₁, except_ok_bind, hok, except_pure]
    · rwa [List.reverse_cons, List.append_assoc, List.singleton_append]
    · intro j
      rw [hslot, hslot₁]
      by_cases hji : j = i
      · subst hji
        simp
      · simp [hji]
    · rw [List.length_cons]
      omega
    · intro p hp
      rw [List.zip_cons_cons, List.mem_cons] at hp
      rcases hp with rfl | hp
      · exact hx
      · rw [← hother p.1 (List.of_mem_zip hp).1]
        exact hitems p hp

namespace Pending

/-- A change that keeps the slab and the recorded removals. -/
theorem congr (hp : Pending s) (hcslab : s'.cslab = s.cslab)
    (hpending : livePending s'.gens = livePending s.gens)
    (hpoison : s'.poisoned = false → s.poisoned = false) : Pending s' := by
  refine ⟨hcslab ▸ hp.cslab, hpending ▸ hp.nodup, ?_, ?_⟩
  · rw [hpending, hcslab]
    exact hp.slot
  · intro h
    rw [hpending, hcslab]
    exact hp.mem (hpoison h)

theorem insert {c : Cslab α} {i : Nat} {x : α} (hp : Pending s)
    (hinsert : s.cslab.insert x = .ok (some i, c)) (hcslab : s'.cslab = c)
    (hgens : s'.gens = s.gens) (hpoison : s'.poisoned = s.poisoned) : Pending s' := by
  obtain ⟨free, hinv⟩ := hp.cslab
  obtain ⟨rest, -, hinv', hslot, -, hfree⟩ := hinv.of_insert hinsert
  have hne : ∀ j y, s.cslab.slot j = .pending y → j ≠ i := by
    rintro j y hj rfl
    exact absurd (hfree.symm.trans hj) (by simp)
  refine ⟨⟨rest, hcslab ▸ hinv'⟩, hgens ▸ hp.nodup, ?_, ?_⟩
  · intro j hj
    rw [hgens] at hj
    obtain ⟨y, hy⟩ := hp.slot j hj
    exact ⟨y, by rw [hcslab, hslot, Function.update_of_ne (hne j y hy), hy]⟩
  · intro h j y hj
    rw [hcslab, hslot] at hj
    by_cases hji : j = i
    · subst hji
      simp at hj
    · rw [Function.update_of_ne hji] at hj
      rw [hgens]
      exact hp.mem (hpoison ▸ h) j y hj

theorem mark {c : Cslab α} {i g : Nat} {gen : Gen} (hp : Pending s)
    (hmark : s.cslab.markRemoved i = .ok c) (hgen : s.gens[g]? = some gen)
    (halive : gen.alive = true) (hcslab : s'.cslab = c)
    (hgens : s'.gens = s.gens.set g { gen with pendingRemoves := gen.pendingRemoves ++ [i] })
    (hpoison : s'.poisoned = s.poisoned) : Pending s' := by
  obtain ⟨free, hinv⟩ := hp.cslab
  obtain ⟨x, hlive, hinv', hslot, -⟩ := hinv.of_markRemoved hmark
  have hperm := livePending_push (i := i) hgen halive
  rw [← hgens] at hperm
  have hnotin : i ∉ livePending s.gens := by
    intro hi
    obtain ⟨y, hy⟩ := hp.slot i hi
    exact absurd (hlive.symm.trans hy) (by simp)
  refine ⟨⟨free, hcslab ▸ hinv'⟩, ?_, ?_, ?_⟩
  · rw [hperm.nodup_iff, List.nodup_cons]
    exact ⟨hnotin, hp.nodup⟩
  · intro j hj
    rw [hcslab, hslot]
    rcases List.mem_cons.mp (hperm.mem_iff.mp hj) with rfl | hj
    · exact ⟨x, Function.update_self ..⟩
    · have hji : j ≠ i := fun hji => hnotin (hji ▸ hj)
      obtain ⟨y, hy⟩ := hp.slot j hj
      exact ⟨y, by rw [Function.update_of_ne hji, hy]⟩
  · intro h j y hj
    rw [hcslab, hslot] at hj
    rw [hperm.mem_iff, List.mem_cons]
    by_cases hji : j = i
    · exact Or.inl hji
    · rw [Function.update_of_ne hji] at hj
      exact Or.inr (hp.mem (hpoison ▸ h) j y hj)

/-- The removals recorded in a generation that is alive. -/
theorem of_gen {g : Nat} {gen : Gen} (hp : Pending s) (hgen : s.gens[g]? = some gen)
    (halive : gen.alive = true) :
    gen.pendingRemoves.Nodup ∧ ∀ i ∈ gen.pendingRemoves, ∃ x, s.cslab.slot i = .pending x := by
  refine ⟨?_, fun i hi => hp.slot i (mem_livePending.mpr ⟨g, gen, hgen, halive, hi⟩)⟩
  obtain ⟨l₁, l₂, hl, -, -⟩ := exists_split_of_getElem? hgen
  have hnodup := hp.nodup
  simp only [hl, livePending, List.flatMap_append, List.flatMap_cons, halive, if_true] at hnodup
  exact (List.nodup_append.mp (List.nodup_append.mp hnodup).2.1).1

/-- A finalization that succeeds frees exactly the slots of the generation. -/
theorem of_finalizeAll {c : Cslab α} {items : List α} {g : Nat} {gen : Gen} (hp : Pending s)
    (hgen : s.gens[g]? = some gen) (halive : gen.alive = true)
    (hfinalize : finalizeAll gen.pendingRemoves s.cslab = .ok (items, c)) :
    (∃ free, c.Inv free) ∧
      (∀ j, c.slot j = if j ∈ gen.pendingRemoves then .free else s.cslab.slot j) ∧
      c.storage.size = s.cslab.storage.size := by
  obtain ⟨free, hinv⟩ := hp.cslab
  obtain ⟨hnodup, hpending⟩ := hp.of_gen hgen halive
  obtain ⟨items', c', hok, hinv', hslot, hsize, -⟩ := finalizeAll_eq_ok hinv hnodup hpending
  rw [hfinalize, Except.ok.injEq, Prod.mk.injEq] at hok
  obtain ⟨-, rfl⟩ := hok
  exact ⟨⟨_, hinv'⟩, hslot, hsize⟩

/-- The drop of the oldest generation finalizes its removals, and no others. A slot is recorded in
one generation only, so what remains pending remains recorded. -/
theorem finalize {c : Cslab α} {items : List α} {g : Nat} {gen : Gen} (hp : Pending s)
    (hgen : s.gens[g]? = some gen) (halive : gen.alive = true)
    (hdead : ∀ j < g, ¬Alive s.gens j)
    (hfinalize : finalizeAll gen.pendingRemoves s.cslab = .ok (items, c)) (hcslab : s'.cslab = c)
    (hgens : s'.gens = s.gens.set g { gen with strong := 0 })
    (hpoison : s'.poisoned = s.poisoned) : Pending s' := by
  obtain ⟨hinv, hslot, -⟩ := hp.of_finalizeAll hgen halive hfinalize
  obtain ⟨rest, hrest, hrest'⟩ := livePending_of_first hgen halive hdead
  rw [← hrest' { gen with strong := 0 } rfl, ← hgens] at hrest
  have hnodup := hp.nodup
  rw [hrest, List.nodup_append] at hnodup
  obtain ⟨-, hnodup, hdisj⟩ := hnodup
  refine ⟨hcslab ▸ hinv, hnodup, ?_, ?_⟩
  · intro j hj
    obtain ⟨y, hy⟩ := hp.slot j (hrest ▸ List.mem_append_right _ hj)
    exact ⟨y, by rw [hcslab, hslot, if_neg (fun hmem => hdisj j hmem j hj rfl), hy]⟩
  · intro h j y hj
    rw [hcslab, hslot] at hj
    split_ifs at hj with hmem
    have hall := hp.mem (hpoison ▸ h) j y hj
    rw [hrest, List.mem_append] at hall
    exact hall.resolve_left hmem

/-- After a panic the drop of a generation forgets its removals. The slots stay marked for ever,
which the invariant allows only with the mutex poisoned. -/
theorem leak {g : Nat} {gen : Gen} (hp : Pending s) (hgen : s.gens[g]? = some gen)
    (halive : gen.alive = true) (hdead : ∀ j < g, ¬Alive s.gens j) (hcslab : s'.cslab = s.cslab)
    (hgens : s'.gens = s.gens.set g { gen with strong := 0 }) (hpoison : s'.poisoned = true) :
    Pending s' := by
  obtain ⟨rest, hrest, hrest'⟩ := livePending_of_first hgen halive hdead
  rw [← hrest' { gen with strong := 0 } rfl, ← hgens] at hrest
  have hnodup := hp.nodup
  rw [hrest, List.nodup_append] at hnodup
  refine ⟨hcslab ▸ hp.cslab, hnodup.2.1, ?_, ?_⟩
  · intro j hj
    rw [hcslab]
    exact hp.slot j (hrest ▸ List.mem_append_right _ hj)
  · intro h
    exact absurd (hpoison.symm.trans h) (by simp)

end Pending

/-! ### Borrows -/

namespace Borrows

theorem of_unborrowed (hun : s'.Unborrowed)
    (hiter : ∀ k r, HandleAt s'.readers k r → ∀ it ∈ r.iters, it.tail ≤ s'.cslab.storage.size) :
    Borrows s' := by
  obtain ⟨hlocked, him, hentries⟩ := hun
  refine ⟨fun _ => ⟨hlocked, him, hentries⟩, ?_, ?_, ?_, ?_, ?_, hiter⟩
  · intro h
    exact absurd (hlocked.symm.trans h) (by simp)
  · intro im h
    exact absurd (him.symm.trans h) (by simp)
  · intro _ _ _ k e hk
    exact absurd hk (hentries k e)
  · intro k e hk
    exact absurd hk (hentries k e)
  · intro k k' e e' hk
    exact absurd hk (hentries k e)

/-- Finalizations and the release of references touch nothing that is borrowed. -/
theorem congr (hb : Borrows s) (hslab : s'.slab = s.slab) (hlocked : s'.locked = s.locked)
    (him : s'.iterMut = s.iterMut) (hentries : s'.entries = s.entries)
    (hreaders : s'.readers = s.readers) (hpoison : s'.poisoned = s.poisoned)
    (hkey : s.locked = true → s'.cslab = s.cslab)
    (hsize : s'.cslab.storage.size = s.cslab.storage.size)
    (hlive : ∀ i x, s.cslab.slot i = .live x → s'.cslab.slot i = .live x) : Borrows s' := by
  refine ⟨?_, ?_, ?_, ?_, ?_, ?_, ?_⟩
  · rw [hslab, State.Unborrowed, hlocked, him, hentries]
    exact hb.of_dropped
  · rw [hlocked, him, hentries, hpoison]
    intro h
    rw [hkey h]
    exact hb.locked h
  · rw [hslab, him, hentries, hpoison, hsize]
    exact hb.iterMut
  · rw [hslab, him, hentries, hreaders]
    exact hb.entry_gen
  · rw [hentries, hpoison]
    intro k e hk
    obtain ⟨hpoison, hslot⟩ := hb.entry_live k e hk
    exact ⟨hpoison, hlive _ _ hslot⟩
  · rw [hentries]
    exact hb.entry_idx
  · rw [hreaders, hsize]
    exact hb.reader_iter

theorem unlock (hb : Borrows s) : Borrows { s with locked := false } := by
  refine ⟨fun hslab => ?_, by simp, hb.iterMut, hb.entry_gen, hb.entry_live, hb.entry_idx,
    hb.reader_iter⟩
  obtain ⟨-, him, hentries⟩ := hb.of_dropped hslab
  exact ⟨rfl, him, hentries⟩

theorem lock (hb : Borrows s) (husable : s.usable = true) (hpoison : s.poisoned = false)
    (hkey : s.cslab.vacantKey.isSome = true) : Borrows { s with locked := true } := by
  obtain ⟨hslab, -, him, hentries⟩ := State.usable_iff.mp husable
  refine ⟨fun hnone => ?_, fun _ => ⟨him, hentries, hpoison, hkey⟩, hb.iterMut, hb.entry_gen,
    hb.entry_live, hb.entry_idx, hb.reader_iter⟩
  simp only at hnone
  simp [hnone] at hslab

theorem startIter {remaining : Nat} (hb : Borrows s) (hp : Pending s) (husable : s.usable = true)
    (hpoison : s.poisoned = false) :
    Borrows { s with iterMut := some ⟨Iter.new s.cslab.storage, remaining⟩ } := by
  obtain ⟨hslab, hlocked, -, hentries⟩ := State.usable_iff.mp husable
  obtain ⟨free, hinv⟩ := hp.cslab
  refine ⟨fun hnone => ?_, fun h => ?_, fun im him => ?_, by simp, hb.entry_live, hb.entry_idx,
    hb.reader_iter⟩
  · simp only at hnone
    simp [hnone] at hslab
  · exact absurd (hlocked.symm.trans h) (by simp)
  · simp only [Option.some.injEq] at him
    subst him
    exact ⟨hpoison, hinv.frontier_le, fun _ _ k e hk => absurd hk (hentries k e)⟩

theorem moveIter {im im' : IterMut} (hb : Borrows s) (him : s.iterMut = some im)
    (hshrinks : Iter.Shrinks im.iter im'.iter) : Borrows { s with iterMut := some im' } := by
  obtain ⟨hhead, htail⟩ := hshrinks
  obtain ⟨hpoison, hsize, hgen⟩ := hb.iterMut im him
  refine ⟨fun hnone => ?_, fun h => ?_, fun im₁ him₁ => ?_, by simp, hb.entry_live, hb.entry_idx,
    hb.reader_iter⟩
  · exact absurd (him.symm.trans (hb.of_dropped hnone).2.1) (by simp)
  · exact absurd (him.symm.trans (hb.locked h).1) (by simp)
  · simp only [Option.some.injEq] at him₁
    subst him₁
    refine ⟨hpoison, htail.trans hsize, fun slab hslab k e hk => ?_⟩
    obtain ⟨hcur, hidx⟩ := hgen slab hslab k e hk
    exact ⟨hcur, fun hin => hidx ⟨hhead.trans hin.1, hin.2.trans_le htail⟩⟩

theorem yieldEntry {slab : Slab} {im im' : IterMut} {i : Nat} {x : α} (hb : Borrows s)
    (hslab : s.slab = some slab) (him : s.iterMut = some im)
    (hshrinks : Iter.Shrinks im.iter im'.iter) (hi : im.iter.head ≤ i ∧ i < im.iter.tail)
    (hi' : ¬(im'.iter.head ≤ i ∧ i < im'.iter.tail)) (hlive : s.cslab.slot i = .live x)
    (gens : List Gen) :
    Borrows { s with
      iterMut := some im', gens, entries := s.entries ++ [some ⟨i, x, slab.curGen⟩] } := by
  obtain ⟨hpoison, -, hgen⟩ := hb.iterMut im him
  have hmove := hb.moveIter him hshrinks
  -- the entries yielded before have left the range of the iterator
  have hfresh : ∀ k e, HandleAt s.entries k e → e.idx ≠ i := by
    rintro k e hk rfl
    exact (hgen slab hslab k e hk).2 hi
  refine ⟨fun hnone => ?_, fun h => ?_, fun im₁ him₁ => ?_, by simp, ?_, ?_, hb.reader_iter⟩
  · exact absurd (hslab.symm.trans hnone) (by simp)
  · exact absurd (him.symm.trans (hb.locked h).1) (by simp)
  · obtain ⟨hpoison₁, hsize₁, hgen₁⟩ := hmove.iterMut im₁ him₁
    refine ⟨hpoison₁, hsize₁, fun slab₁ hslab₁ k e hk => ?_⟩
    rcases handleAt_append.mp hk with hk | ⟨-, rfl⟩
    · exact hgen₁ slab₁ hslab₁ k e hk
    · simp only [Option.some.injEq] at him₁
      subst him₁
      have hsame : slab = slab₁ := by simpa using hslab.symm.trans hslab₁
      exact ⟨hsame ▸ rfl, hi'⟩
  · intro k e hk
    rcases handleAt_append.mp hk with hk | ⟨-, rfl⟩
    · exact hb.entry_live k e hk
    · exact ⟨hpoison, hlive⟩
  · intro k k' e e' hk hk' hidx
    rcases handleAt_append.mp hk with hk | ⟨hkeq, rfl⟩
    · rcases handleAt_append.mp hk' with hk' | ⟨-, rfl⟩
      · exact hb.entry_idx k k' e e' hk hk' hidx
      · exact absurd hidx (hfresh k e hk)
    · rcases handleAt_append.mp hk' with hk' | ⟨hkeq', -⟩
      · exact absurd hidx.symm (hfresh k' e' hk')
      · exact hkeq.trans hkeq'.symm

/-- The drop of an entry, with a change of the slab that leaves the other entries alone. It covers
both the plain drop and the removal of the item. -/
theorem dropEntry {k : Nat} {e : Entry α} {c : Cslab α} (hb : Borrows s)
    (hk : HandleAt s.entries k e) (hsize : c.storage.size = s.cslab.storage.size)
    (hslot : ∀ j, j ≠ e.idx → c.slot j = s.cslab.slot j) (gens : List Gen)
    (log : List (Event α)) :
    Borrows { s with cslab := c, gens, entries := s.entries.set k none, log } := by
  have hnolock : s.locked = false := by
    rw [Bool.eq_false_iff]
    intro h
    exact (hb.locked h).2.1 k e hk
  refine ⟨fun hnone => ?_, fun h => ?_, fun im him => ?_, fun him slab hslab k' e' hk' => ?_,
    fun k' e' hk' => ?_, fun k₁ k₂ e₁ e₂ h₁ h₂ => ?_, ?_⟩
  · exact absurd hk ((hb.of_dropped hnone).2.2 k e)
  · exact absurd (hnolock.symm.trans h) (by simp)
  · obtain ⟨hpoison, htail, hgen⟩ := hb.iterMut im him
    exact ⟨hpoison, hsize ▸ htail, fun slab hslab k' e' hk' =>
      hgen slab hslab k' e' hk'.of_drop.2⟩
  · exact hb.entry_gen him slab hslab k' e' hk'.of_drop.2
  · obtain ⟨hne, hk'⟩ := hk'.of_drop
    obtain ⟨hpoison, hlive⟩ := hb.entry_live k' e' hk'
    have hidx : e'.idx ≠ e.idx := fun heq => hne (hb.entry_idx k' k e' e hk' hk heq)
    exact ⟨hpoison, (hslot e'.idx hidx).trans hlive⟩
  · exact hb.entry_idx k₁ k₂ e₁ e₂ h₁.of_drop.2 h₂.of_drop.2
  · simp only [hsize]
    exact hb.reader_iter

theorem advance {slab : Slab} (hb : Borrows s) (hr : Refs h s) (hslab : s.slab = some slab)
    (hlocked : s.locked = false)
    (hiter : s.iterMut.isSome = true ∨ ∀ k e, ¬HandleAt s.entries k e)
    (hslab' : s'.slab = some { slab with curGen := s.gens.length })
    (hlocked' : s'.locked = s.locked) (him' : s'.iterMut = none)
    (hentries : s'.entries = s.entries) (hreaders : s'.readers = s.readers)
    (hcslab : s'.cslab = s.cslab) (hpoison : s'.poisoned = s.poisoned) : Borrows s' := by
  have hcur := hr.curGen slab hslab
  refine ⟨?_, ?_, ?_, ?_, ?_, ?_, ?_⟩
  · intro hnone
    exact absurd (hslab'.symm.trans hnone) (by simp)
  · intro h
    exact absurd ((hlocked'.trans hlocked).symm.trans h) (by simp)
  · intro im h
    exact absurd (him'.symm.trans h) (by simp)
  · intro _ slab₁ hslab₁ k e hk
    rw [hslab', Option.some.injEq] at hslab₁
    rw [hentries] at hk
    rcases hiter with hsome | hnone
    · obtain ⟨im, him⟩ := Option.isSome_iff_exists.mp hsome
      have hgen := ((hb.iterMut im him).2.2 slab hslab k e hk).1
      rw [← hslab₁]
      refine ⟨by rw [hgen]; exact hcur, fun k' r hr' => ?_⟩
      rw [hreaders] at hr'
      have hlt := (hr.alive_of_reader hr').lt_length
      omega
    · exact absurd hk (hnone k e)
  · rw [hentries, hpoison, hcslab]
    exact hb.entry_live
  · rw [hentries]
    exact hb.entry_idx
  · rw [hreaders, hcslab]
    exact hb.reader_iter

/-- A change of the readers that adds none of a newer generation. -/
theorem of_readers (hb : Borrows s) (hslab : s'.slab = s.slab) (hlocked : s'.locked = s.locked)
    (him : s'.iterMut = s.iterMut) (hentries : s'.entries = s.entries)
    (hcslab : s'.cslab = s.cslab) (hpoison : s'.poisoned = s.poisoned)
    (hgen : ∀ k r, HandleAt s'.readers k r → (∃ k' r', HandleAt s.readers k' r' ∧ r'.gen = r.gen) ∨
      ∀ k e, ¬HandleAt s.entries k e)
    (hiter : ∀ k r, HandleAt s'.readers k r → ∀ it ∈ r.iters, it.tail ≤ s.cslab.storage.size) :
    Borrows s' := by
  refine ⟨?_, ?_, ?_, ?_, ?_, ?_, ?_⟩
  · rw [hslab, State.Unborrowed, hlocked, him, hentries]
    exact hb.of_dropped
  · rw [hlocked, him, hentries, hpoison, hcslab]
    exact hb.locked
  · rw [hslab, him, hentries, hpoison, hcslab]
    exact hb.iterMut
  · rw [hslab, him, hentries]
    intro hnone slab hs k e hk
    obtain ⟨hcur, hle⟩ := hb.entry_gen hnone slab hs k e hk
    refine ⟨hcur, fun k' r hr => ?_⟩
    rcases hgen k' r hr with ⟨k₁, r₁, h₁, heq⟩ | hno
    · exact heq ▸ hle k₁ r₁ h₁
    · exact absurd hk (hno k e)
  · rw [hentries, hpoison, hcslab]
    exact hb.entry_live
  · rw [hentries]
    exact hb.entry_idx
  · rw [hcslab]
    exact hiter

end Borrows

/-! ### The actions -/

theorem Release.inv {p q : Held × State α} (ha : Release p q) (hi : Inv p.1 p.2) :
    Inv q.1 q.2 := by
  obtain ⟨hr, hp, hb⟩ := hi
  cases ha with
  | @writer s gen storage hmore =>
    exact ⟨hr.releaseWriter hmore, hp.congr rfl rfl id,
      hb.congr rfl rfl rfl rfl rfl rfl (fun _ => rfl) rfl fun _ _ h => h⟩
  | @writerLast s gen hlast =>
    exact ⟨hr.releaseWriterLast hlast, hp.congr rfl rfl id,
      hb.congr rfl rfl rfl rfl rfl rfl (fun _ => rfl) rfl fun _ _ h => h⟩
  | @storage s gen hmore =>
    exact ⟨hr.releaseStorage, hp.congr rfl rfl id,
      hb.congr rfl rfl rfl rfl rfl rfl (fun _ => rfl) rfl fun _ _ h => h⟩
  | @storageLast s gen items hlast hitems =>
    have hstorage : s.storageStrong - 1 = 0 := by rw [hlast]
    refine ⟨hstorage ▸ hr.releaseStorage, hp.congr rfl rfl id,
      hb.congr rfl rfl rfl rfl rfl rfl (fun _ => rfl) rfl fun _ _ h => h⟩
  | @gen s g gen hgen hmore =>
    have halive : ({ gen with strong := gen.strong - 1 } : Gen).alive = gen.alive := by
      simp only [Gen.alive]
      rw [bne_iff_ne.mpr (by omega), bne_iff_ne.mpr (by omega)]
    refine ⟨hr.of_set hgen rfl halive rfl rfl rfl rfl ?_ (fun j hj => ?_) rfl,
      hp.congr rfl (livePending_set hgen halive rfl) id,
      hb.congr rfl rfl rfl rfl rfl rfl (fun _ => rfl) rfl fun _ _ h => h⟩
    · simp only [beq_self_eq_true, Bool.toNat_true, State.handleRefs, Option.none_beq_some,
        Bool.toNat_false]
      omega
    · simp [State.handleRefs, Ne.symm hj]
  | @finalizeGen s g gen c items hgen hlast hpoison hlocked hfinalize =>
    have halive : gen.alive = true := by simp [Gen.alive, hlast]
    have hdead := hr.not_alive_of_lt rfl ((strongAt_of_getElem? hgen).trans hlast)
    obtain ⟨-, hslot, hsize⟩ := hp.of_finalizeAll hgen halive hfinalize
    have hlive : ∀ i x, s.cslab.slot i = .live x → c.slot i = .live x := by
      intro i x hx
      rw [hslot, if_neg, hx]
      intro hi
      obtain ⟨y, hy⟩ := (hp.of_gen hgen halive).2 i hi
      exact absurd (hx.symm.trans hy) (by simp)
    refine ⟨hr.die hgen hlast rfl rfl rfl rfl rfl rfl,
      hp.finalize hgen halive hdead hfinalize rfl rfl rfl,
      hb.congr rfl rfl rfl rfl rfl rfl (fun h => ?_) hsize hlive⟩
    exact absurd (hlocked.symm.trans h) (by simp)
  | @leakGen s g gen hgen hlast hpoison =>
    have halive : gen.alive = true := by simp [Gen.alive, hlast]
    have hdead := hr.not_alive_of_lt rfl ((strongAt_of_getElem? hgen).trans hlast)
    exact ⟨hr.die hgen hlast rfl rfl rfl rfl rfl rfl, hp.leak hgen halive hdead rfl rfl hpoison,
      hb.congr rfl rfl rfl rfl rfl rfl (fun _ => rfl) rfl fun _ _ h => h⟩

/-- **Every action keeps the invariant.** The parts of the invariant are the reference counts, the
pending removals, and what the borrow rules say; each is shown by cases on the action. -/
theorem Action.inv {p q : Held × State α} (ha : Action p q) (hi : Inv p.1 p.2) : Inv q.1 q.2 := by
  obtain ⟨hr, hp, hb⟩ := hi
  cases ha with
  | @insert s c i x husable hpoison hinsert =>
    obtain ⟨free, hinv⟩ := hp.cslab
    obtain ⟨-, -, -, -, hsize, -⟩ := hinv.of_insert hinsert
    refine ⟨hr.congr rfl rfl rfl rfl rfl rfl,
      hp.insert hinsert rfl rfl rfl, .of_unborrowed (State.usable_iff.mp husable).2 ?_⟩
    simp only [hsize]
    exact hb.reader_iter
  | reject =>
    exact ⟨hr.congr rfl rfl rfl rfl rfl rfl, hp.congr rfl rfl id,
      hb.congr rfl rfl rfl rfl rfl rfl (fun _ => rfl) rfl fun _ _ h => h⟩
  | @mark s slab c i husable hpoison hslab hmark =>
    obtain ⟨gen, hgen, halive⟩ := hr.alive_of_slab hslab
    obtain ⟨free, hinv⟩ := hp.cslab
    obtain ⟨-, -, -, -, hsize⟩ := hinv.of_markRemoved hmark
    have hset := modify_eq_set_of_getElem? hgen
      fun gen => { gen with pendingRemoves := gen.pendingRemoves ++ [i] }
    refine ⟨hr.of_moved hgen hset rfl rfl rfl rfl rfl (fun _ => rfl) rfl,
      hp.mark hmark hgen halive rfl hset rfl, .of_unborrowed (State.usable_iff.mp husable).2 ?_⟩
    simp only [hsize]
    exact hb.reader_iter
  | lock husable hpoison hkey =>
    exact ⟨hr.congr rfl rfl rfl rfl rfl rfl, hp.congr rfl rfl id,
      hb.lock husable hpoison hkey⟩
  | unlock =>
    exact ⟨hr.congr rfl rfl rfl rfl rfl rfl, hp.congr rfl rfl id,
      hb.unlock⟩
  | startIter husable hpoison =>
    exact ⟨hr.congr rfl rfl rfl rfl rfl rfl, hp.congr rfl rfl id,
      hb.startIter hp husable hpoison⟩
  | moveIter him hshrinks =>
    exact ⟨hr.congr rfl rfl rfl rfl rfl rfl, hp.congr rfl rfl id,
      hb.moveIter him hshrinks⟩
  | @yieldEntry s slab im im' i x hslab him hshrinks hi hi' hlive =>
    obtain ⟨gen, hgen, halive⟩ := hr.alive_of_slab hslab
    have hset := modify_eq_set_of_getElem? hgen fun gen => { gen with strong := gen.strong + 1 }
    have halive' := alive_acquired halive
    refine ⟨hr.of_set hgen hset halive' rfl rfl rfl rfl ?_ (fun j hj => ?_) rfl,
      hp.congr rfl ?_ id, hb.yieldEntry hslab him hshrinks hi hi' hlive _⟩
    · simp only [State.handleRefs, countHandles_append, Option.any_some, beq_self_eq_true,
        Bool.toNat_true]
      omega
    · simp [State.handleRefs, countHandles_append, Ne.symm hj]
    · rw [hset, livePending_set hgen halive' rfl]
  | @removeEntry s k e c hk hmark =>
    obtain ⟨gen, hgen, halive⟩ := hr.alive_of_entry hk
    obtain ⟨free, hinv⟩ := hp.cslab
    obtain ⟨x, -, -, hslot, hsize⟩ := hinv.of_markRemoved hmark
    have hset := modify_eq_set_of_getElem? hgen
      fun gen => { gen with pendingRemoves := gen.pendingRemoves ++ [e.idx] }
    exact ⟨hr.of_moved hgen hset rfl rfl rfl rfl rfl
        (fun j => State.handleRefs_dropEntry hk (by rfl) (by rfl) (by rfl) j) rfl,
      hp.mark hmark hgen halive rfl hset rfl,
      hb.dropEntry hk hsize (fun j hj => by rw [hslot, Function.update_of_ne hj]) _ _⟩
  | @dropEntry s k e hk =>
    obtain ⟨gen, hgen, -⟩ := hr.alive_of_entry hk
    exact ⟨hr.of_moved hgen (set_self_of_getElem? hgen).symm rfl rfl rfl rfl rfl
        (fun j => State.handleRefs_dropEntry hk (by rfl) (by rfl) (by rfl) j) rfl,
      hp.congr rfl rfl id, hb.dropEntry hk rfl (fun _ _ => rfl) _ _⟩
  | @advance s slab hslab hlocked hiter =>
    obtain ⟨gen, hgen, -⟩ := hr.alive_of_slab hslab
    have hset := modify_eq_set_of_getElem? hgen
      fun gen => { gen with nextGen := some s.gens.length }
    refine ⟨hr.advance hslab hgen (congrArg (· ++ [_]) hset) rfl rfl rfl rfl rfl,
      hp.congr rfl ?_ id, hb.advance hr hslab hlocked hiter rfl rfl rfl rfl rfl rfl rfl⟩
    have hpush : livePending (s.gens.set slab.curGen
        { gen with nextGen := some s.gens.length }) = livePending s.gens :=
      livePending_set hgen rfl rfl
    simp only [hset, livePending, List.flatMap_append] at hpush ⊢
    rw [hpush]
    simp
  | @addReader s g hg =>
    have halive : Alive s.gens g := by
      rcases hg with ⟨-, slab, hslab, rfl⟩ | ⟨k, r, hk, rfl⟩
      · exact hr.alive_of_slab hslab
      · exact hr.alive_of_reader hk
    obtain ⟨gen, hgen, halive⟩ := halive
    have hset := modify_eq_set_of_getElem? hgen fun gen => { gen with strong := gen.strong + 1 }
    have halive' := alive_acquired halive
    refine ⟨hr.of_set hgen hset halive' rfl rfl rfl rfl ?_ (fun j hj => ?_) ?_,
      hp.congr rfl (by rw [hset, livePending_set hgen halive' rfl]) id,
      hb.of_readers rfl rfl rfl rfl rfl rfl (fun k r hk => ?_) (fun k r hk => ?_)⟩
    · simp only [State.handleRefs, countHandles_append, Option.any_some, beq_self_eq_true,
        Bool.toNat_true]
      omega
    · simp [State.handleRefs, countHandles_append, Ne.symm hj]
    · simp only [State.readerCount, countHandles_append, Option.any_some, Bool.toNat_true]
      omega
    · rcases handleAt_append.mp hk with hk | ⟨-, rfl⟩
      · exact Or.inl ⟨k, r, hk, rfl⟩
      · rcases hg with ⟨husable, -⟩ | ⟨k', r', hk', hgen'⟩
        · exact Or.inr (State.usable_iff.mp husable).2.2.2
        · exact Or.inl ⟨k', r', hk', hgen'⟩
    · rcases handleAt_append.mp hk with hk | ⟨-, rfl⟩
      · exact hb.reader_iter k r hk
      · simp
  | @setIters s k r iters hk htail =>
    obtain ⟨gen, hgen, -⟩ := hr.alive_of_reader hk
    refine ⟨hr.of_moved hgen (set_self_of_getElem? hgen).symm rfl rfl rfl rfl rfl (fun j => ?_) ?_,
      hp.congr rfl rfl id, hb.of_readers rfl rfl rfl rfl rfl rfl (fun k' r' hk' => ?_)
        (fun k' r' hk' => ?_)⟩
    · simp only [State.handleRefs]
      rw [countHandles_replace hk]
      rfl
    · simp only [State.readerCount]
      rw [countHandles_replace hk]
      rfl
    · rcases handleAt_set.mp hk' with ⟨-, hk'⟩ | ⟨-, -, heq⟩
      · exact Or.inl ⟨k', r', hk', rfl⟩
      · rw [Option.some.injEq] at heq
        exact Or.inl ⟨k, r, hk, by rw [← heq]⟩
    · rcases handleAt_set.mp hk' with ⟨-, hk'⟩ | ⟨-, -, heq⟩
      · exact hb.reader_iter k' r' hk'
      · rw [Option.some.injEq] at heq
        rw [← heq]
        exact htail
  | @dropReader s k r hk =>
    obtain ⟨gen, hgen, -⟩ := hr.alive_of_reader hk
    refine ⟨hr.of_moved hgen (set_self_of_getElem? hgen).symm rfl rfl rfl rfl rfl
        (fun j => State.handleRefs_dropReader hk (by rfl) (by rfl) (by rfl) j) ?_,
      hp.congr rfl rfl id, hb.of_readers rfl rfl rfl rfl rfl rfl (fun k' r' hk' => ?_)
        (fun k' r' hk' => ?_)⟩
    · have hcount := countHandles_drop (p := fun _ => true) hk
      simp only [State.readerCount, Bool.toNat_true, Bool.toNat_false] at hcount ⊢
      omega
    · exact Or.inl ⟨k', r', hk'.of_drop.2, rfl⟩
    · exact hb.reader_iter k' r' hk'.of_drop.2
  | @dropSlab s slab husable hslab =>
    exact ⟨hr.dropSlab hslab, hp.congr rfl rfl id,
      .of_unborrowed (State.usable_iff.mp husable).2 hb.reader_iter⟩
  | abort =>
    exact ⟨hr.congr rfl rfl rfl rfl rfl rfl, hp.congr rfl rfl id,
      hb.congr rfl rfl rfl rfl rfl rfl (fun _ => rfl) rfl fun _ _ h => h⟩
  | release hrelease => exact hrelease.inv ⟨hr, hp, hb⟩

theorem Poison.inv (ha : Poison s s') (hi : Inv {} s) : Inv {} s' := by
  obtain ⟨hr, hp, hb⟩ := hi
  obtain ⟨hslab, hiter, hentries⟩ := ha
  exact ⟨hr.congr rfl rfl rfl rfl rfl rfl, hp.congr rfl rfl (by simp),
    .of_unborrowed ⟨rfl, hiter, hentries⟩ hb.reader_iter⟩

/-- A new slab has one generation, which it owns. -/
theorem inv_withFixedCapacity {t : Layout} {n : Nat}
    (hinit : withFixedCapacity .memory t n = .ok s) :
    Inv {} s := by
  obtain ⟨cslab, hcslab, hs⟩ := except_bind_eq_ok.mp hinit
  obtain ⟨hinv, -, -, hslot⟩ := Cslab.inv_withFixedCapacity hcslab
  rw [except_pure, Except.ok.injEq] at hs
  subst hs
  refine ⟨⟨?_, ?_, ?_, rfl, rfl⟩, ⟨⟨_, hinv⟩, by simp [livePending], by simp [livePending], ?_⟩,
    .of_unborrowed ⟨rfl, rfl, by simp [HandleAt]⟩ (by simp [HandleAt])⟩
  · intro g gen hgen
    cases g with
    | zero =>
      simp only [List.getElem?_cons_zero, Option.some.injEq] at hgen
      simp [← hgen]
    | succ g => simp at hgen
  · intro slab hslab
    simp only [Option.some.injEq] at hslab
    simp [← hslab]
  · intro g
    cases g with
    | zero => rfl
    | succ g => cases g <;> simp [strongAt, State.handleRefs, countHandles, predRef]
  · intro _ i x hx
    simp [hslot] at hx

end ZprUtils.RcuCslab
