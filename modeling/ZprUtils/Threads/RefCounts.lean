import ZprUtils.RcuCslab.Invariant

/-!
# Strong counts with references in flight

At any time the strong count of a generation is the number of its handles, plus the references that
threads are about to drop, plus the one of its predecessor; likewise for the mutex and the storage.
`RefCounts` takes the references in flight as numbers, so that its lemmas say nothing about threads:
each says how one update of the state moves the books. A call without other threads is the case in
which a call owns at most one reference of each kind.

## Main definitions

* `RefCounts` — the books of all strong counts.

## Main results

* `RefCounts.alive_of_le` — the generations that are alive are the last ones.
* `RefCounts.acquire`, `RefCounts.releaseGen`, `RefCounts.die`, `RefCounts.advance` — one reference
  more and one less to a generation, the drop of a generation and a new generation.
-/

namespace ZprUtils.RcuCslab

variable {α : Type} {gen gen' : Nat → Nat} {writer writer' storage storage' : Nat}
  {s s' : State α}

/-- **Reference counts** with references in flight: `gen g` to generation `g`, `writer` to the mutex
and `storage` to the storage. -/
structure RefCounts (gen : Nat → Nat) (writer storage : Nat) (s : State α) : Prop where
  nextGen : ∀ (g : Nat) (x : Gen), s.gens[g]? = some x →
    x.nextGen = if g + 1 < s.gens.length then some (g + 1) else none
  curGen : ∀ slab, s.slab = some slab → slab.curGen + 1 = s.gens.length
  strong : ∀ g, strongAt s.gens g = s.handleRefs g + gen g + predRef s.gens g
  writer : s.writerStrong = s.slab.isSome.toNat + s.gens.countP Gen.alive + writer
  storage : s.storageStrong =
    (s.writerStrong != 0).toNat + s.slab.isSome.toNat + s.readerCount + storage

namespace RefCounts

/-- Without references in flight these are the counts between calls. -/
theorem refs (hr : RefCounts (fun _ => 0) 0 0 s) : Refs {} s :=
  ⟨hr.nextGen, hr.curGen, hr.strong, hr.writer, hr.storage⟩

section

variable (hr : RefCounts gen writer storage s)
include hr

theorem alive_of_handleRefs {g : Nat} (hg : 0 < s.handleRefs g) : Alive s.gens g := by
  rw [alive_iff_strongAt, hr.strong]
  omega

theorem alive_of_pos {g : Nat} (hg : 0 < gen g) : Alive s.gens g := by
  rw [alive_iff_strongAt, hr.strong]
  omega

theorem alive_of_reader {k : Nat} {r : Reader} (hk : HandleAt s.readers k r) :
    Alive s.gens r.gen := by
  refine hr.alive_of_handleRefs ?_
  have hpos := countHandles_pos (p := (·.gen == r.gen)) hk (beq_self_eq_true _)
  rw [State.handleRefs]
  omega

theorem alive_of_entry {k : Nat} {e : Entry α} (hk : HandleAt s.entries k e) :
    Alive s.gens e.gen := by
  refine hr.alive_of_handleRefs ?_
  have hpos := countHandles_pos (p := (·.gen == e.gen)) hk (beq_self_eq_true _)
  rw [State.handleRefs]
  omega

theorem alive_of_slab {slab : Slab} (hslab : s.slab = some slab) : Alive s.gens slab.curGen := by
  refine hr.alive_of_handleRefs ?_
  simp [State.handleRefs, hslab]

theorem predRef_eq {g : Nat} (hg : g + 1 < s.gens.length) (halive : Alive s.gens g) :
    predRef s.gens (g + 1) = 1 := by
  obtain ⟨x, hx, hxalive⟩ := halive
  have hnext := hr.nextGen g x hx
  rw [if_pos hg] at hnext
  simp [predRef, hx, hxalive, hnext]

theorem alive_succ {g : Nat} (hg : g + 1 < s.gens.length) (halive : Alive s.gens g) :
    Alive s.gens (g + 1) := by
  rw [alive_iff_strongAt, hr.strong, hr.predRef_eq hg halive]
  omega

/-- The generations that are alive are the last ones, because each of them holds its successor. -/
theorem alive_of_le {g g' : Nat} (halive : Alive s.gens g) (hle : g ≤ g')
    (hlt : g' < s.gens.length) : Alive s.gens g' := by
  induction g', hle using Nat.le_induction with
  | base => exact halive
  | succ g' hle ih => exact hr.alive_succ hlt (ih (by omega))

/-- The last reference to a generation is dropped only after all its predecessors are gone: a
predecessor that is alive would hold another one. -/
theorem not_alive_of_lt {g : Nat} (hgen : 0 < gen g) (hone : strongAt s.gens g = 1) :
    ∀ j < g, ¬Alive s.gens j := by
  intro j hj halive
  obtain ⟨k, rfl⟩ : ∃ k, g = k + 1 := ⟨g - 1, by omega⟩
  have hlt := (hr.alive_of_pos hgen).lt_length
  have hpred := hr.predRef_eq hlt (hr.alive_of_le halive (Nat.lt_succ_iff.mp hj) (by omega))
  have hstrong := hr.strong (k + 1)
  omega

theorem writerStrong_pos (h : s.slab.isSome = true ∨ 0 < writer) : 0 < s.writerStrong := by
  have hwriter := hr.writer
  rcases h with h | h
  · rw [h, Bool.toNat_true] at hwriter
    omega
  · omega

/-- A generation that is alive keeps the mutex. -/
theorem writerStrong_pos_of_alive {g : Nat} (h : Alive s.gens g) : 0 < s.writerStrong := by
  obtain ⟨x, hx, halive⟩ := h
  have hpos : 0 < s.gens.countP Gen.alive :=
    List.countP_pos_iff.mpr ⟨x, List.mem_of_getElem? hx, halive⟩
  have hwriter := hr.writer
  omega

theorem storageStrong_pos (h : 0 < s.writerStrong ∨ 0 < s.readerCount ∨ 0 < storage) :
    0 < s.storageStrong := by
  have hstorage := hr.storage
  rcases h with h | h | h
  · have hne : (s.writerStrong != 0) = true := bne_iff_ne.mpr (by omega)
    rw [hne, Bool.toNat_true] at hstorage
    omega
  · omega
  · omega

end

/-! ### Updates -/

/-- The same references in flight, counted in another way. -/
theorem recount (hr : RefCounts gen writer storage s) (hgen : ∀ g, gen' g = gen g)
    (hwriter : writer' = writer) (hstorage : storage' = storage) :
    RefCounts gen' writer' storage' s := by
  rw [show gen' = gen from funext hgen, hwriter, hstorage]
  exact hr

/-- A change of nothing that is counted. -/
theorem congr (hr : RefCounts gen writer storage s) (hgens : s'.gens = s.gens)
    (hslab : s'.slab = s.slab) (hreaders : s'.readers = s.readers)
    (hentries : s'.entries = s.entries) (hwriter : s'.writerStrong = s.writerStrong)
    (hstorage : s'.storageStrong = s.storageStrong) : RefCounts gen writer storage s' := by
  have hrefs : s'.handleRefs = s.handleRefs := by
    funext j
    simp only [State.handleRefs, hreaders, hentries, hslab]
  constructor
  · rw [hgens]
    exact hr.nextGen
  · rw [hgens, hslab]
    exact hr.curGen
  · rw [hgens, hrefs]
    exact hr.strong
  · rw [hgens, hslab, hwriter]
    exact hr.writer
  · rw [hslab, hwriter, hstorage, State.readerCount, hreaders]
    exact hr.storage

theorem nextGen_set {g j : Nat} {x x' y : Gen} (hr : RefCounts gen writer storage s)
    (hx : s.gens[g]? = some x) (hnext : x'.nextGen = x.nextGen)
    (hj : (s.gens.set g x')[j]? = some y) :
    y.nextGen = if j + 1 < s.gens.length then some (j + 1) else none := by
  rw [List.getElem?_set] at hj
  by_cases hjg : g = j
  · subst hjg
    simp only [if_true, (List.getElem?_eq_some_iff.mp hx).1, Option.some.injEq] at hj
    rw [← hj, hnext, hr.nextGen g x hx]
  · rw [if_neg hjg] at hj
    exact hr.nextGen j y hj

/-- A change of one strong count and of the handles, with the books balanced: at the generation
itself against its count, and elsewhere against each other. -/
theorem of_set {g : Nat} {x x' : Gen} (hr : RefCounts gen writer storage s)
    (hx : s.gens[g]? = some x) (hgens : s'.gens = s.gens.set g x') (halive : x'.alive = x.alive)
    (hnext : x'.nextGen = x.nextGen) (hslab : s'.slab = s.slab)
    (hwriter : s'.writerStrong = s.writerStrong)
    (hself : x'.strong + s.handleRefs g + gen g = x.strong + s'.handleRefs g + gen' g)
    (hother : ∀ j, j ≠ g → s'.handleRefs j + gen' j = s.handleRefs j + gen j)
    (hstorage : s'.storageStrong + s.readerCount + storage =
      s.storageStrong + s'.readerCount + storage') : RefCounts gen' writer storage' s' := by
  have hlen : s'.gens.length = s.gens.length := by rw [hgens, List.length_set]
  refine ⟨fun j y hj => ?_, fun slab hs => ?_, fun j => ?_, ?_, ?_⟩
  · rw [hgens] at hj
    rw [hlen]
    exact hr.nextGen_set hx hnext hj
  · rw [hlen]
    exact hr.curGen slab (hslab ▸ hs)
  · have hstrong := hr.strong j
    rw [hgens, strongAt_set hx, predRef_set hx halive hnext]
    by_cases hjg : j = g
    · subst hjg
      rw [strongAt_of_getElem? hx] at hstrong
      rw [if_pos rfl]
      omega
    · have hj := hother j hjg
      rw [if_neg hjg]
      omega
  · have hcount := countP_alive_set hx x'
    rw [halive] at hcount
    rw [hwriter, hslab, hgens, hr.writer]
    omega
  · have hsto := hr.storage
    rw [hwriter, hslab]
    omega

/-- **One more reference** to a generation that is alive, held by a handle or by a thread. -/
theorem acquire {g : Nat} {x : Gen} (hr : RefCounts gen writer storage s)
    (hx : s.gens[g]? = some x) (halive : x.alive = true)
    (hgens : s'.gens = s.gens.set g { x with strong := x.strong + 1 }) (hslab : s'.slab = s.slab)
    (hwriter : s'.writerStrong = s.writerStrong)
    (hrefs : ∀ j, s'.handleRefs j + gen' j = s.handleRefs j + gen j + (g == j).toNat)
    (hstorage : s'.storageStrong + s.readerCount + storage =
      s.storageStrong + s'.readerCount + storage') : RefCounts gen' writer storage' s' := by
  refine hr.of_set hx hgens (alive_acquired halive) rfl hslab hwriter ?_ (fun j hj => ?_) hstorage
  · have hself := hrefs g
    rw [beq_self_eq_true, Bool.toNat_true] at hself
    simp only
    omega
  · have hother := hrefs j
    rwa [show (g == j) = false by simp [Ne.symm hj], Bool.toNat_false] at hother

/-- **One reference less** to a generation that has others: a thread has dropped it. The last
reference is the case of `die`. -/
theorem releaseGen {g : Nat} {x : Gen} (hr : RefCounts gen writer storage s)
    (hx : s.gens[g]? = some x) (hmore : 1 < x.strong)
    (hgens : s'.gens = s.gens.set g { x with strong := x.strong - 1 }) (hslab : s'.slab = s.slab)
    (hwriter : s'.writerStrong = s.writerStrong)
    (hrefs : ∀ j, s'.handleRefs j + gen' j + (g == j).toNat = s.handleRefs j + gen j)
    (hstorage : s'.storageStrong + s.readerCount + storage =
      s.storageStrong + s'.readerCount + storage') : RefCounts gen' writer storage' s' := by
  have halive : ({ x with strong := x.strong - 1 } : Gen).alive = x.alive := by
    rw [Bool.eq_iff_iff]
    simp only [Gen.alive, bne_iff_ne, ne_eq]
    omega
  refine hr.of_set hx hgens halive rfl hslab hwriter ?_ (fun j hj => ?_) hstorage
  · have hself := hrefs g
    rw [beq_self_eq_true, Bool.toNat_true] at hself
    simp only
    omega
  · have hother := hrefs j
    rwa [show (g == j) = false by simp [Ne.symm hj], Bool.toNat_false] at hother

/-- References that move between the handles and the threads. -/
theorem of_moved (hr : RefCounts gen writer storage s) (hgens : s'.gens = s.gens)
    (hslab : s'.slab = s.slab) (hwriter : s'.writerStrong = s.writerStrong)
    (hstorage : s'.storageStrong = s.storageStrong)
    (hrefs : ∀ j, s'.handleRefs j + gen' j = s.handleRefs j + gen j)
    (hreaders : s'.readerCount + storage' = s.readerCount + storage) :
    RefCounts gen' writer storage' s' := by
  constructor
  · rw [hgens]
    exact hr.nextGen
  · rw [hgens, hslab]
    exact hr.curGen
  · intro j
    have hstrong := hr.strong j
    have hj := hrefs j
    rw [hgens]
    omega
  · rw [hgens, hslab, hwriter]
    exact hr.writer
  · have hsto := hr.storage
    rw [hslab, hwriter, hstorage]
    omega

/-- The drop of a generation passes its references on to the thread: one to the next generation and
one to the mutex. -/
theorem die {g : Nat} {x : Gen} (hr : RefCounts gen writer storage s)
    (hx : s.gens[g]? = some x) (hlast : x.strong = 1) (hpos : 0 < gen g)
    (hgens : s'.gens = s.gens.set g { x with strong := 0 }) (hslab : s'.slab = s.slab)
    (hwriter : s'.writerStrong = s.writerStrong) (hstorage : s'.storageStrong = s.storageStrong)
    (hreaders : s'.readers = s.readers) (hentries : s'.entries = s.entries)
    (hgen : ∀ j, gen' j + (g == j).toNat = gen j + (x.nextGen == some j).toNat) :
    RefCounts gen' (writer + 1) storage s' := by
  have hlen : s'.gens.length = s.gens.length := by rw [hgens, List.length_set]
  have hrefs : s'.handleRefs = s.handleRefs := by
    funext j
    simp only [State.handleRefs, hreaders, hentries, hslab]
  have hone := hr.strong g
  rw [strongAt_of_getElem? hx, hlast] at hone
  have halive : x.alive = true := by simp [Gen.alive, hlast]
  -- the only references that change are those to `g` and to its successor
  have hpred : ∀ j, predRef s'.gens j + (x.nextGen == some j).toNat = predRef s.gens j := by
    intro j
    rw [hgens]
    exact predRef_set_dead hx halive (hr.nextGen g x hx) j
  refine ⟨fun j y hj => ?_, fun slab hs => ?_, fun j => ?_, ?_, ?_⟩
  · rw [hgens] at hj
    rw [hlen]
    refine hr.nextGen_set hx ?_ hj
    rfl
  · rw [hlen]
    exact hr.curGen slab (hslab ▸ hs)
  · have hstrong := hr.strong j
    have hj := hpred j
    have hj' := hgen j
    simp only [hrefs]
    rw [hgens, strongAt_set hx, ← hgens]
    by_cases hjg : j = g
    · subst hjg
      simp only [if_true, beq_self_eq_true, Bool.toNat_true] at hj' ⊢
      omega
    · have hne : (g == j) = false := by simp [Ne.symm hjg]
      simp only [hne, Bool.toNat_false] at hj'
      rw [if_neg hjg]
      omega
  · have hcount := countP_alive_set hx { x with strong := 0 }
    have hdead : ({ x with strong := 0 } : Gen).alive = false := rfl
    rw [halive, hdead, Bool.toNat_true, Bool.toNat_false] at hcount
    have hw := hr.writer
    rw [hwriter, hslab, hgens]
    omega
  · have hsto := hr.storage
    simp only [State.readerCount] at hsto ⊢
    rw [hwriter, hslab, hstorage, hreaders]
    exact hsto

/-- A new generation takes the reference of the slab, and the thread has to drop the one to the old
generation. -/
theorem advance {slab : Slab} {x : Gen} (hr : RefCounts gen writer storage s)
    (hslab : s.slab = some slab) (hx : s.gens[slab.curGen]? = some x)
    (hgens : s'.gens = s.gens.set slab.curGen { x with nextGen := some s.gens.length } ++
      [⟨2, [], none⟩]) (hslab' : s'.slab = some { slab with curGen := s.gens.length })
    (hwriter : s'.writerStrong = s.writerStrong + 1)
    (hstorage : s'.storageStrong = s.storageStrong) (hreaders : s'.readers = s.readers)
    (hentries : s'.entries = s.entries)
    (hgen : ∀ j, gen' j = gen j + (slab.curGen == j).toNat) :
    RefCounts gen' writer storage s' := by
  have hcur := hr.curGen slab hslab
  have hlt := (List.getElem?_eq_some_iff.mp hx).1
  have halive : x.alive = true := by
    obtain ⟨x', hx', halive⟩ := hr.alive_of_slab hslab
    rwa [Option.some.inj (hx.symm.trans hx')]
  have hnext : x.nextGen = none := by
    rw [hr.nextGen _ _ hx, if_neg (by omega)]
  have hlen : s'.gens.length = s.gens.length + 1 := by simp [hgens]
  rw [← hcur] at hgens
  refine ⟨fun j y hj => ?_, fun slab'' hs => ?_, fun j => ?_, ?_, ?_⟩
  · rw [hgens] at hj
    rw [hlen]
    rcases Nat.lt_or_ge j s.gens.length with hjlt | hjge
    · rw [List.getElem?_append_left (by rwa [List.length_set]), List.getElem?_set] at hj
      rw [if_pos (by omega)]
      by_cases hjc : slab.curGen = j
      · subst hjc
        simp only [if_true, hlt, Option.some.injEq] at hj
        rw [← hj]
      · rw [if_neg hjc] at hj
        have hold := hr.nextGen j y hj
        rwa [if_pos (by omega)] at hold
    · rw [List.getElem?_append_right (by rwa [List.length_set]), List.length_set,
        List.getElem?_singleton] at hj
      split_ifs at hj with hzero
      rw [Option.some.injEq] at hj
      rw [if_neg (by omega), ← hj]
  · rw [hslab', Option.some.injEq] at hs
    rw [hlen, ← hs]
  · have hstrong := hr.strong j
    have hj' := hgen j
    have hrefs : s'.handleRefs j + (slab.curGen == j).toNat =
        s.handleRefs j + (s.gens.length == j).toNat := by
      simp only [State.handleRefs, hreaders, hentries, hslab, hslab', Option.any_some]
      omega
    rw [hgens, strongAt_append, strongAt_set hx, predRef_append rfl,
      predRef_set_nextGen hx halive hnext, List.length_set]
    have hself : (if j = slab.curGen then x.strong else strongAt s.gens j) =
        strongAt s.gens j := by
      split_ifs with hj
      · rw [hj, strongAt_of_getElem? hx]
      · rfl
    simp only [hself]
    by_cases hj : j = s.gens.length
    · -- the new generation is referenced by the slab and by the old one
      have hzero : strongAt s.gens j = 0 := by simp [strongAt, hj]
      simp only [hj, hcur, beq_self_eq_true, Bool.toNat_true, if_true] at *
      omega
    · have hne : (s.gens.length == j) = false := by simp [Ne.symm hj]
      have hne' : (j == slab.curGen + 1) = false := by simp [hcur, hj]
      simp only [hne, hne', Bool.toNat_false, if_neg hj] at *
      omega
  · have hcount := countP_alive_set hx { x with nextGen := some (slab.curGen + 1) }
    have hw := hr.writer
    have hnew : (⟨2, [], none⟩ : Gen).alive = true := rfl
    have hsame : ({ x with nextGen := some (slab.curGen + 1) } : Gen).alive = x.alive := rfl
    rw [hsame] at hcount
    simp only [hwriter, hslab', hgens, List.countP_append, List.countP_singleton, hnew, if_true,
      Option.isSome_some, hslab, Bool.toNat_true] at hw ⊢
    omega
  · have hsto := hr.storage
    have hone : (s.writerStrong != 0) = true :=
      bne_iff_ne.mpr (hr.writerStrong_pos (Or.inl (by rw [hslab]; rfl))).ne'
    have hone' : (s.writerStrong + 1 != 0) = true := by simp
    simp only [State.readerCount, hwriter, hslab, hslab', hstorage, hreaders, hone, hone',
      Option.isSome_some] at hsto ⊢
    exact hsto

/-- The slab passes its three references on to the thread. -/
theorem dropSlab {slab : Slab} (hr : RefCounts gen writer storage s) (hslab : s.slab = some slab)
    (hgen : ∀ j, gen' j = gen j + (slab.curGen == j).toNat) :
    RefCounts gen' (writer + 1) (storage + 1) { s with slab := none } := by
  refine ⟨hr.nextGen, by simp, fun g => ?_, ?_, ?_⟩
  · have hstrong := hr.strong g
    have hg := hgen g
    simp only [State.handleRefs, hslab, Option.any_some, Option.any_none,
      Bool.toNat_false] at hstrong ⊢
    omega
  · have hw := hr.writer
    simp only [hslab, Option.isSome_some, Option.isSome_none, Bool.toNat_true,
      Bool.toNat_false] at hw ⊢
    omega
  · have hs := hr.storage
    simp only [State.readerCount, hslab, Option.isSome_some, Option.isSome_none, Bool.toNat_true,
      Bool.toNat_false] at hs ⊢
    omega

theorem releaseWriter (hr : RefCounts gen (writer + 1) storage s) (hmore : 1 < s.writerStrong) :
    RefCounts gen writer storage { s with writerStrong := s.writerStrong - 1 } := by
  refine ⟨hr.nextGen, hr.curGen, hr.strong, ?_, ?_⟩
  · have hw := hr.writer
    simp only
    omega
  · have hs := hr.storage
    have hne : (s.writerStrong != 0) = true := bne_iff_ne.mpr (by omega)
    have hne' : (s.writerStrong - 1 != 0) = true := bne_iff_ne.mpr (by omega)
    simp only [State.readerCount, hne, hne'] at hs ⊢
    exact hs

/-- The last reference to the mutex is dropped together with the slab behind it, which had a
reference to the storage. -/
theorem releaseWriterLast (hr : RefCounts gen (writer + 1) storage s) (hlast : s.writerStrong = 1) :
    RefCounts gen writer (storage + 1) { s with writerStrong := 0 } := by
  have hw := hr.writer
  refine ⟨hr.nextGen, hr.curGen, hr.strong, ?_, ?_⟩
  · simp only
    omega
  · have hs := hr.storage
    have hne : (s.writerStrong != 0) = true := bne_iff_ne.mpr (by omega)
    simp only [State.readerCount, hne, bne_self_eq_false, Bool.toNat_true, Bool.toNat_false]
      at hs ⊢
    omega

theorem releaseStorage {log : List (Event α)} (hr : RefCounts gen writer (storage + 1) s) :
    RefCounts gen writer storage { s with storageStrong := s.storageStrong - 1, log } := by
  refine ⟨hr.nextGen, hr.curGen, hr.strong, hr.writer, ?_⟩
  have hs := hr.storage
  simp only [State.readerCount] at hs ⊢
  omega

end RefCounts

end ZprUtils.RcuCslab
