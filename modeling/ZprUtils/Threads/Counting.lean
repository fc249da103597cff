import ZprUtils.Threads.Steps

/-!
# The counts over a step

Every move keeps the books: the strong counts, the guard of the mutex, and the removals in flight.
A move changes the weights of one thread, so each case compares the thread before and after it.

## Main results

* `Move.refs`, `Move.guards`, `Move.removals`.
-/

namespace ZprUtils.RcuCslab

variable {α : Type} {c : Config α} {t : Nat} {th : Thread α} {p : Site α}

/-! ### The weights of program points -/

section

variable {pc pc' : Pc α}

theorem Pc.refs_of_locks (h : pc.locks = some pc') :
    (∀ g, pc'.genRefs g = pc.genRefs g) ∧ (∀ i, pc'.records i = pc.records i) ∧
      (∀ i, pc'.marks i = pc.marks i) ∧ pc.guards = 0 ∧ pc'.guards = 1 := by
  cases pc <;> simp only [Pc.locks, reduceCtorEq, Option.some.injEq] at h <;> subst h <;>
    exact ⟨fun _ => rfl, fun _ => rfl, fun _ => rfl, rfl, rfl⟩

theorem Pc.refs_of_unlocks (h : pc.unlocks = some pc') :
    (∀ g, pc'.genRefs g = pc.genRefs g) ∧ (∀ i, pc'.records i = pc.records i) ∧
      (∀ i, pc'.marks i = pc.marks i) ∧ pc.guards = 1 ∧ pc'.guards = 0 := by
  cases pc <;> simp only [Pc.unlocks, reduceCtorEq, Option.some.injEq] at h <;> subst h <;>
    exact ⟨fun _ => rfl, fun _ => rfl, fun _ => rfl, rfl, rfl⟩

/-- The references of an entry are dropped when its removal unwinds. -/
theorem Pc.refs_of_waiting (h : pc.waiting = true) :
    (∀ g, total (Drop.genRefs g) pc.unwind.1 + pc.unwind.2.genRefs g = pc.genRefs g) ∧
      total Drop.writerRefs pc.unwind.1 = 0 ∧ total Drop.storageRefs pc.unwind.1 = 0 ∧
      total Drop.guards pc.unwind.1 + pc.unwind.2.guards = pc.guards ∧
      ∀ i, total (Drop.records i) pc.unwind.1 + pc.unwind.2.records i = pc.records i := by
  cases pc with
  | mark m idx =>
    cases m <;> exact ⟨fun g => by simp [Pc.unwind, MarkFor.drops, Drop.genRefs, Pc.genRefs,
      MarkFor.genRefs], rfl, rfl, rfl, fun _ => rfl⟩
  | observe | insert x | iterMut clear | vacantEntry =>
    exact ⟨fun _ => rfl, rfl, rfl, rfl, fun _ => rfl⟩
  | _ => exact absurd h (by simp [Pc.waiting])

/-- A thread that runs destructors owns nothing else. -/
theorem Pc.refs_of_quiet (h : pc.quiet = true) : pc.unwind.1 = [] ∧
    (∀ g, pc.genRefs g = 0 ∧ pc.unwind.2.genRefs g = 0) ∧
      pc.guards = 0 ∧ pc.unwind.2.guards = 0 ∧
      ∀ i, pc.records i = 0 ∧ pc.unwind.2.records i = 0 := by
  cases pc with
  | idle | clearLoop | dropIterMut | newReader clear | ret b =>
    exact ⟨rfl, fun _ => ⟨rfl, rfl⟩, rfl, rfl, fun _ => ⟨rfl, rfl⟩⟩
  | _ => exact absurd h (by simp [Pc.quiet])

theorem Pc.refs_of_entersCall (h : pc.entersCall = true) :
    (∀ g, pc.genRefs g = 0) ∧ pc.guards = 0 ∧ (∀ i, pc.records i = 0) ∧ ∀ i, pc.marks i = 0 := by
  cases pc with
  | insert x | iterMut clear | vacantEntry =>
    exact ⟨fun _ => rfl, rfl, fun _ => rfl, fun _ => rfl⟩
  | mark m idx =>
    cases m with
    | markRemoved | remove => exact ⟨fun _ => rfl, rfl, fun _ => rfl, fun _ => rfl⟩
    | entry g | clear g => exact absurd h (by simp [Pc.entersCall])
  | advance dropIter => exact ⟨fun _ => rfl, rfl, fun _ => rfl, fun _ => rfl⟩
  | _ => exact absurd h (by simp [Pc.entersCall])

theorem Advances.refs {u : Bool} (h : Advances pc u pc') :
    (∀ g, pc.genRefs g = 0 ∧ pc'.genRefs g = 0) ∧ (pc.guards = 0 ∧ pc'.guards = 0) ∧
      (∀ i, pc.records i = 0 ∧ pc'.records i = 0) ∧ ∀ i, pc.marks i = 0 ∧ pc'.marks i = 0 := by
  cases h <;>
    exact ⟨fun _ => ⟨rfl, rfl⟩, ⟨rfl, rfl⟩, fun _ => ⟨rfl, rfl⟩, fun _ => ⟨rfl, rfl⟩⟩

theorem MarkFor.refs (m : MarkFor) :
    (∀ g, total (Drop.genRefs g) (m.drops : List (Drop α)) = m.genRefs g) ∧
      total Drop.writerRefs (m.drops : List (Drop α)) = 0 ∧
      total Drop.storageRefs (m.drops : List (Drop α)) = 0 ∧
      total Drop.guards (m.drops : List (Drop α)) = 0 ∧
      (∀ i, total (Drop.records i) (m.drops : List (Drop α)) = 0) ∧
      (∀ g, (m.next : Pc α).genRefs g = 0) ∧ (m.next : Pc α).guards = 0 ∧
      (∀ i, (m.next : Pc α).records i = 0) ∧ ∀ i, (m.next : Pc α).marks i = 0 := by
  cases m <;> exact ⟨fun g => by simp [MarkFor.drops, Drop.genRefs, MarkFor.genRefs], rfl, rfl,
    rfl, fun _ => rfl, fun _ => rfl, rfl, fun _ => rfl, fun _ => rfl⟩

/-- The fields of a generation have its references. -/
theorem genFields_refs (next : Option Nat) :
    (∀ g, total (Drop.genRefs g) (genFields next : List (Drop α)) = (next == some g).toNat) ∧
      total Drop.writerRefs (genFields next : List (Drop α)) = 1 ∧
      total Drop.storageRefs (genFields next : List (Drop α)) = 0 ∧
      total Drop.guards (genFields next : List (Drop α)) = 0 ∧
      ∀ i, total (Drop.records i) (genFields next : List (Drop α)) = 0 := by
  cases next <;> exact ⟨fun g => by simp [genFields, Drop.genRefs], rfl, rfl, rfl, fun _ => rfl⟩

end

/-! ### Totals after a step -/

section

variable (ht : c.ThreadAt t th)
include ht

theorem genRefs_place (p : Site α) (g : Nat) :
    (c.place t p).genRefs g + th.genRefs g = c.genRefs g + p.thread.genRefs g :=
  total_set (w := (Thread.genRefs · g)) ht p.thread

theorem writerRefs_place (p : Site α) :
    (c.place t p).writerRefs + th.writerRefs = c.writerRefs + p.thread.writerRefs :=
  total_set ht p.thread

theorem storageRefs_place (p : Site α) :
    (c.place t p).storageRefs + th.storageRefs = c.storageRefs + p.thread.storageRefs :=
  total_set ht p.thread

theorem load_place (p : Site α) (i : Nat) :
    (c.place t p).load i + th.records i + (livePending c.state.gens).count i =
      c.load i + p.thread.records i + (livePending p.state.gens).count i := by
  have htotal := total_set (w := (Thread.records · i)) ht p.thread
  simp only [Config.load, Config.place] at htotal ⊢
  omega

end

/-! ### References -/

section

variable {gen : Nat → Nat} {writer storage : Nat}
  (hg : ∀ g, gen g + th.genRefs g = c.genRefs g + p.thread.genRefs g)
  (hw : writer + th.writerRefs = c.writerRefs + p.thread.writerRefs)
  (hs : storage + th.storageRefs = c.storageRefs + p.thread.storageRefs)
include hg hw hs

/-- A step that moves no reference. -/
theorem refs_of_same (hr : RefCounts c.genRefs c.writerRefs c.storageRefs c.state)
    (hgen : ∀ g, p.thread.genRefs g = th.genRefs g)
    (hwriter : p.thread.writerRefs = th.writerRefs)
    (hstorage : p.thread.storageRefs = th.storageRefs) : RefCounts gen writer storage c.state := by
  refine hr.recount (fun g => ?_) (by omega) (by omega)
  have hplace := hg g
  have hsame := hgen g
  omega

/-- **References.** Every move keeps the strong counts equal to the number of references, those in
handles and those that threads own while a call or a destructor runs. A move changes the count and
moves one reference, or it does neither. -/
theorem Move.refs (h : Move c t th p) (hi : ThreadInv c) (ht : c.ThreadAt t th) :
    RefCounts gen writer storage p.state := by
  have hr := hi.refs
  cases h with
  | storage hmore | storageLast hlast hitems =>
    simp only [Thread.genRefs, Thread.writerRefs, Thread.storageRefs, total_cons, Drop.genRefs,
      Drop.writerRefs, Drop.storageRefs] at hg hw hs
    refine RefCounts.releaseStorage (hr.recount (fun g => ?_) ?_ ?_)
    · have hg := hg g
      omega
    · omega
    · omega
  | writer hmore =>
    simp only [Thread.genRefs, Thread.writerRefs, Thread.storageRefs, total_cons, Drop.genRefs,
      Drop.writerRefs, Drop.storageRefs] at hg hw hs
    refine RefCounts.releaseWriter (hr.recount (fun g => ?_) ?_ ?_) hmore
    · have hg := hg g
      omega
    · omega
    · omega
  | writerLast hlast =>
    simp only [Thread.genRefs, Thread.writerRefs, Thread.storageRefs, total_cons, Drop.genRefs,
      Drop.writerRefs, Drop.storageRefs] at hg hw hs
    obtain ⟨n, rfl⟩ : ∃ n, storage = n + 1 := ⟨storage - 1, by omega⟩
    refine RefCounts.releaseWriterLast (hr.recount (fun g => ?_) ?_ ?_) hlast
    · have hg := hg g
      omega
    · omega
    · omega
  | @gen ds pc u g x hx hmore =>
    simp only [Thread.genRefs, Thread.writerRefs, Thread.storageRefs, total_cons, Drop.genRefs,
      Drop.writerRefs, Drop.storageRefs] at hg hw hs
    obtain rfl : writer = c.writerRefs := by omega
    refine hr.releaseGen hx hmore rfl rfl rfl (fun j => ?_) ?_
    · have hg := hg j
      simp only [State.handleRefs]
      omega
    · simp only [State.readerCount]
      omega
  | @genLast ds pc u g x hx hlast =>
    have hpos : 0 < c.genRefs g := by
      refine lt_of_lt_of_le ?_ (le_total (w := (Thread.genRefs · g)) ht)
      simp only [Thread.genRefs, total_cons, Drop.genRefs, beq_self_eq_true, Bool.toNat_true]
      omega
    simp only [Thread.genRefs, Thread.writerRefs, Thread.storageRefs, total_cons, Drop.genRefs,
      Drop.writerRefs, Drop.storageRefs] at hg hw hs
    obtain rfl : writer = c.writerRefs + 1 := by omega
    obtain rfl : storage = c.storageRefs := by omega
    refine hr.die hx hlast hpos rfl rfl rfl rfl rfl rfl fun j => ?_
    have hg := hg j
    omega
  | finalize hlocked hpoison | finalizing hfinalize | finalized | dropItem =>
    exact (refs_of_same hg hw hs hr (fun g => rfl) rfl rfl).congr rfl rfl rfl rfl rfl rfl
  | @leak ds pc g indices next hpoison =>
    obtain ⟨hgenf, hwf, hsf, -⟩ := genFields_refs (α := α) next
    obtain ⟨hnil, hpcg, -⟩ :=
      Pc.refs_of_quiet ((hi.iteration.threads t _ ht).dropping (List.cons_ne_nil _ _))
    refine refs_of_same hg hw hs hr (fun g => ?_) ?_ ?_
    · obtain ⟨hpc, hpc'⟩ := hpcg g
      simp only [Thread.genRefs, hnil, List.append_nil, total_append, hgenf, total_cons,
        Drop.genRefs, hpc, hpc']
    · simp only [Thread.writerRefs, hnil, List.append_nil, total_append, hwf, total_cons,
        Drop.writerRefs]
    · simp only [Thread.storageRefs, hnil, List.append_nil, total_append, hsf, total_cons,
        Drop.storageRefs]
  | @dropFields ds pc u g next =>
    obtain ⟨hgenf, hwf, hsf, -⟩ := genFields_refs (α := α) next
    refine refs_of_same hg hw hs hr (fun g => ?_) ?_ ?_
    · simp only [Thread.genRefs, total_append, hgenf, total_cons, Drop.genRefs]
    · simp only [Thread.writerRefs, total_append, hwf, total_cons, Drop.writerRefs]
    · simp only [Thread.storageRefs, total_append, hsf, total_cons, Drop.storageRefs]
  | lock hpc hlocked hpoison =>
    refine (refs_of_same hg hw hs hr (fun g => ?_) rfl rfl).congr rfl rfl rfl rfl rfl rfl
    simp only [Thread.genRefs, (Pc.refs_of_locks hpc).1 g]
  | unlock hpc =>
    refine (refs_of_same hg hw hs hr (fun g => ?_) rfl rfl).congr rfl rfl rfl rfl rfl rfl
    simp only [Thread.genRefs, (Pc.refs_of_unlocks hpc).1 g]
  | unwind hpc hpoison hlog =>
    obtain ⟨hgenu, hwu, hsu, -⟩ := Pc.refs_of_waiting hpc
    refine (refs_of_same hg hw hs hr (fun g => ?_) ?_ ?_).congr rfl rfl rfl rfl rfl rfl
    · simp only [Thread.genRefs, hgenu, total_nil, Nat.zero_add]
    · simp only [Thread.writerRefs, hwu, total_nil]
    · simp only [Thread.storageRefs, hsu, total_nil]
  | full | reserve | insert hinsert | reject | mark hmark | count | exhaust him hnext | ret
  | observe | fillVacant hv | dropVacant hv | panicVacant hv | iterNone hiterable him hnext
  | iterDrop hiterable him =>
    exact (refs_of_same hg hw hs hr (fun g => rfl) rfl rfl).congr rfl rfl rfl rfl rfl rfl
  | @startIter u clear remaining =>
    refine (refs_of_same hg hw hs hr (fun g => ?_) rfl rfl).congr rfl rfl rfl rfl rfl rfl
    cases clear <;> rfl
  | @poison m idx hm hbit =>
    refine (refs_of_same hg hw hs hr (fun g => ?_) rfl rfl).congr rfl rfl rfl rfl rfl rfl
    cases m with
    | markRemoved | remove => rfl
    | entry g' | clear g' => exact absurd hm (by simp [MarkFor.ofEntry])
  | enter husable hpc =>
    refine refs_of_same hg hw hs hr (fun g => ?_) rfl rfl
    simp only [Thread.genRefs, (Pc.refs_of_entersCall hpc).1 g, Pc.genRefs_idle]
  | @record u m idx g x htarget hx halive =>
    obtain ⟨hgenm, hwm, hsm, -, -, hnext, -⟩ := MarkFor.refs (α := α) m
    simp only [Thread.genRefs, Thread.writerRefs, Thread.storageRefs, total_nil, hgenm, hwm, hsm,
      hnext, Pc.genRefs_record] at hg hw hs
    obtain rfl : writer = c.writerRefs := by omega
    refine hr.of_set hx rfl rfl rfl rfl rfl ?_ (fun j _ => ?_) ?_
    · have hg := hg g
      simp only [State.handleRefs]
      omega
    · have hg := hg j
      simp only [State.handleRefs]
      omega
    · simp only [State.readerCount]
      omega
  | @clearNext u slab im idx x it y hslab him hnext hy halive =>
    simp only [Thread.genRefs, Thread.writerRefs, Thread.storageRefs, total_nil, Pc.genRefs,
      MarkFor.genRefs] at hg hw hs
    obtain rfl : writer = c.writerRefs := by omega
    refine hr.acquire hy halive rfl rfl rfl (fun j => ?_) ?_
    · have hg := hg j
      simp only [State.handleRefs]
      omega
    · simp only [State.readerCount]
      omega
  | @advance pc pc' u slab x im hpc him hslab hx =>
    obtain ⟨hpcg, -⟩ := hpc.refs
    simp only [Thread.genRefs, Thread.writerRefs, Thread.storageRefs, total_cons, total_nil,
      Drop.genRefs, Drop.writerRefs, Drop.storageRefs] at hg hw hs
    obtain rfl : writer = c.writerRefs := by omega
    obtain rfl : storage = c.storageRefs := by omega
    refine hr.advance hslab hx rfl rfl rfl rfl rfl rfl fun j => ?_
    have hg := hg j
    obtain ⟨hzero, hzero'⟩ := hpcg j
    omega
  | @newReader pc u g x hkind hx halive =>
    have hpcg : ∀ j, pc.genRefs j = 0 := by
      rcases hkind with ⟨-, ⟨clear, rfl⟩ | ⟨rfl, -⟩⟩ | ⟨rfl, -⟩ <;> exact fun _ => rfl
    simp only [Thread.genRefs, Thread.writerRefs, Thread.storageRefs, total_nil, hpcg,
      Pc.genRefs_idle] at hg hw hs
    obtain rfl : writer = c.writerRefs := by omega
    refine hr.acquire hx halive rfl rfl rfl (fun j => ?_) ?_
    · have hg := hg j
      simp only [State.handleRefs, State.withReader, countHandles_append, Option.any_some]
      omega
    · simp only [State.readerCount, State.withReader, countHandles_append, Option.any_some,
        Bool.toNat_true]
      omega
  | @dropSlab u slab husable hslab =>
    simp only [Thread.genRefs, Thread.writerRefs, Thread.storageRefs, total_cons, total_nil,
      Drop.genRefs, Drop.writerRefs, Drop.storageRefs, Pc.genRefs] at hg hw hs
    obtain rfl : writer = c.writerRefs + 1 := by omega
    obtain rfl : storage = c.storageRefs + 1 := by omega
    refine hr.dropSlab hslab fun j => ?_
    have hg := hg j
    omega
  | @iterNext u e slab im idx x it y hiterable hslab him hnext hy halive =>
    simp only [Thread.genRefs, Thread.writerRefs, Thread.storageRefs, total_nil, Pc.genRefs]
      at hg hw hs
    obtain rfl : writer = c.writerRefs := by omega
    refine hr.acquire hy halive rfl rfl rfl (fun j => ?_) ?_
    · have hg := hg j
      simp only [State.handleRefs, countHandles_append, Option.any_some]
      omega
    · simp only [State.readerCount]
      omega
  | @entryRemove u k e hk =>
    simp only [Thread.genRefs, Thread.writerRefs, Thread.storageRefs, total_nil, Pc.genRefs,
      MarkFor.genRefs] at hg hw hs
    obtain rfl : writer = c.writerRefs := by omega
    refine hr.of_moved rfl rfl rfl rfl (fun j => ?_) (by simp only [State.readerCount]; omega)
    have hg := hg j
    have hcount := countHandles_drop (p := fun e' : Entry α => e'.gen == j) hk
    simp only [State.handleRefs] at hcount ⊢
    omega
  | @entryDrop u k e hk =>
    simp only [Thread.genRefs, Thread.writerRefs, Thread.storageRefs, total_cons, total_nil,
      Drop.genRefs, Drop.writerRefs, Drop.storageRefs, Pc.genRefs] at hg hw hs
    obtain rfl : writer = c.writerRefs := by omega
    refine hr.of_moved rfl rfl rfl rfl (fun j => ?_) (by simp only [State.readerCount]; omega)
    have hg := hg j
    have hcount := countHandles_drop (p := fun e' : Entry α => e'.gen == j) hk
    simp only [State.handleRefs] at hcount ⊢
    omega
  | @readerDrop u k r hk =>
    simp only [Thread.genRefs, Thread.writerRefs, Thread.storageRefs, total_cons, total_nil,
      Drop.genRefs, Drop.writerRefs, Drop.storageRefs, Pc.genRefs] at hg hw hs
    obtain rfl : writer = c.writerRefs := by omega
    refine hr.of_moved rfl rfl rfl rfl (fun j => ?_) ?_
    · have hg := hg j
      have hcount := countHandles_drop (p := fun r' : Reader => r'.gen == j) hk
      simp only [State.handleRefs] at hcount ⊢
      omega
    · have hcount := countHandles_drop (p := fun _ : Reader => true) hk
      rw [Bool.toNat_true] at hcount
      simp only [State.readerCount]
      omega
  | @setIters u k r iters hk htail =>
    have hsame := refs_of_same hg hw hs hr (fun g => rfl) rfl rfl
    refine hsame.of_moved rfl rfl rfl rfl (fun j => ?_) ?_
    · simp only [State.handleRefs]
      rw [countHandles_replace hk]
      rfl
    · simp only [State.readerCount]
      rw [countHandles_replace hk]
      rfl

end

/-! ### The guard of the mutex -/

/-- **The mutex** is held exactly when a thread has its guard, in a critical section or in a vacant
entry. -/
theorem Move.guards {n : Nat} (h : Move c t th p) (hi : ThreadInv c) (ht : c.ThreadAt t th)
    (hn : n + th.guards = total Thread.guards c.threads + p.thread.guards) :
    n + p.vacant.isSome.toNat = p.state.locked.toNat := by
  have hheld := hi.guards
  have hle := c.state.locked.toNat_le
  cases h with
  | storage | storageLast | writer | writerLast | gen | genLast | finalizing | dropItem =>
    simp only [Thread.guards, total_cons, Drop.guards] at hn
    show n + c.vacant.isSome.toNat = c.state.locked.toNat
    omega
  | finalize hlocked hpoison =>
    simp only [Thread.guards, total_cons, Drop.guards] at hn
    rw [hlocked, Bool.toNat_false] at hheld
    simp only [Bool.toNat_true]
    omega
  | @leak ds pc g indices next hpoison =>
    obtain ⟨-, -, -, hgf, -⟩ := genFields_refs (α := α) next
    obtain ⟨hnil, -, hpc, hpc', -⟩ :=
      Pc.refs_of_quiet ((hi.iteration.threads t _ ht).dropping (List.cons_ne_nil _ _))
    simp only [Thread.guards, total_cons, Drop.guards, hnil, List.append_nil, total_append, hgf,
      hpc, hpc'] at hn
    show n + c.vacant.isSome.toNat = c.state.locked.toNat
    omega
  | finalized =>
    simp only [Thread.guards, total_cons, Drop.guards] at hn
    simp only [Bool.toNat_false]
    omega
  | @dropFields ds pc u g next =>
    obtain ⟨-, -, -, hgf, -⟩ := genFields_refs (α := α) next
    simp only [Thread.guards, total_cons, Drop.guards, total_append, hgf] at hn
    show n + c.vacant.isSome.toNat = c.state.locked.toNat
    omega
  | lock hpc hlocked hpoison =>
    obtain ⟨-, -, -, hpc, hpc'⟩ := Pc.refs_of_locks hpc
    simp only [Thread.guards, hpc, hpc'] at hn
    rw [hlocked, Bool.toNat_false] at hheld
    simp only [Bool.toNat_true]
    omega
  | unlock hpc =>
    obtain ⟨-, -, -, hpc, hpc'⟩ := Pc.refs_of_unlocks hpc
    simp only [Thread.guards, hpc, hpc'] at hn
    simp only [Bool.toNat_false]
    omega
  | full hlocked hpoison =>
    simp only [Thread.guards, Pc.guards] at hn
    rw [hlocked, Bool.toNat_false] at hheld
    simp only [Bool.toNat_true]
    omega
  | reserve hlocked hpoison hkey =>
    simp only [Thread.guards, Pc.guards] at hn
    rw [hlocked, Bool.toNat_false] at hheld
    simp only [Option.isSome_some, Bool.toNat_true]
    omega
  | unwind hpc hpoison hlog =>
    obtain ⟨-, -, -, hgu, -⟩ := Pc.refs_of_waiting hpc
    simp only [Thread.guards, hgu, total_nil] at hn
    show n + c.vacant.isSome.toNat = c.state.locked.toNat
    omega
  | insert | reject | mark | count | exhaust | clearNext | ret | observe | dropSlab | iterNone
  | iterNext | iterDrop | entryRemove | entryDrop | readerDrop | setIters =>
    simp only [Thread.guards, total_cons, total_nil, Drop.guards, Pc.guards] at hn
    show n + c.vacant.isSome.toNat = c.state.locked.toNat
    omega
  | poison hm hbit =>
    simp only [Thread.guards, Pc.guards] at hn
    simp only [State.poison, Bool.toNat_false]
    omega
  | @record u m idx g x htarget hx halive =>
    obtain ⟨-, -, -, hgm, -, -, hnext, -⟩ := MarkFor.refs (α := α) m
    have hrec : (Pc.record m idx : Pc α).guards = 0 := rfl
    simp only [Thread.guards, total_nil, hgm, hnext, hrec] at hn
    show n + c.vacant.isSome.toNat = c.state.locked.toNat
    omega
  | @startIter u clear remaining =>
    have hpc : (if clear then .clearLoop else .idle : Pc α).guards = 0 := by
      cases clear <;> rfl
    have hstart : (Pc.startIter clear remaining : Pc α).guards = 0 := rfl
    simp only [Thread.guards, hpc, hstart] at hn
    show n + c.vacant.isSome.toNat = c.state.locked.toNat
    omega
  | advance hpc him hslab hgen =>
    obtain ⟨-, ⟨hpc, hpc'⟩, -⟩ := hpc.refs
    simp only [Thread.guards, total_cons, total_nil, Drop.guards, hpc, hpc'] at hn
    simp only [State.nextGeneration]
    omega
  | @newReader pc u g x hkind hx halive =>
    have hpcg : pc.guards = 0 := by
      rcases hkind with ⟨-, ⟨clear, rfl⟩ | ⟨rfl, -⟩⟩ | ⟨rfl, -⟩ <;> rfl
    have hidle : (Pc.idle : Pc α).guards = 0 := rfl
    simp only [Thread.guards, hpcg, hidle] at hn
    simp only [State.withReader]
    omega
  | enter husable hpc =>
    obtain ⟨-, hpc, -⟩ := Pc.refs_of_entersCall hpc
    have hidle : (Pc.idle : Pc α).guards = 0 := rfl
    simp only [Thread.guards, hpc, hidle] at hn
    show n + c.vacant.isSome.toNat = c.state.locked.toNat
    omega
  | fillVacant hv | dropVacant hv =>
    simp only [Thread.guards, Pc.guards] at hn
    rw [hv, Option.isSome_some, Bool.toNat_true] at hheld
    simp only [Option.isSome_none, Bool.toNat_false]
    omega
  | panicVacant hv =>
    have hidle : (Pc.idle : Pc α).guards = 0 := rfl
    simp only [Thread.guards, hidle] at hn
    rw [hv, Option.isSome_some, Bool.toNat_true] at hheld
    simp only [State.poison, Option.isSome_none, Bool.toNat_false]
    omega

/-! ### Removals -/

theorem toNat_eq_ite (b : Bool) : b.toNat = if b = true then 1 else 0 := by
  cases b <;> rfl

/-- A change of one generation that keeps it alive and keeps its removals. -/
theorem livePending_set_strong {gens : List Gen} {g n : Nat} {x : Gen} (h : gens[g]? = some x)
    (halive : ({ x with strong := n } : Gen).alive = x.alive) :
    livePending (gens.set g { x with strong := n }) = livePending gens :=
  livePending_set h halive rfl

/-- **Removals.** Every move keeps the removals in flight: a pending slot is recorded in a
generation that is alive, or a thread has it between the mark and the record, or between the drop of
the last handle and the finalization. -/
theorem Move.removals {load : Nat → Nat} (h : Move c t th p) (hi : ThreadInv c)
    (ht : c.ThreadAt t th)
    (hl : ∀ i, load i + th.records i + (livePending c.state.gens).count i =
      c.load i + p.thread.records i + (livePending p.state.gens).count i) :
    Removals load p.state := by
  have hr := hi.removals
  cases h with
  | storage | storageLast | writer | writerLast =>
    refine hr.congr rfl (fun i => ?_) id
    have hl := hl i
    simp only [Thread.records, total_cons, Drop.records] at hl
    omega
  | @gen ds pc u g x hx hmore =>
    have hlive := livePending_set_strong (n := x.strong - 1) hx (by
      rw [Bool.eq_iff_iff]
      simp only [Gen.alive, bne_iff_ne, ne_eq]
      omega)
    refine hr.congr rfl (fun i => ?_) id
    have hl := hl i
    simp only [Thread.records, total_cons, Drop.records, hlive] at hl
    omega
  | @genLast ds pc u g x hx hlast =>
    refine hr.congr rfl (fun i => ?_) id
    have hcount := count_livePending_set hx { x with strong := 0 } i
    have halive : x.alive = true := by simp [Gen.alive, hlast]
    have hdead : ({ x with strong := 0 } : Gen).alive = false := rfl
    rw [halive, hdead] at hcount
    have hl := hl i
    simp only [Thread.records, total_cons, Drop.records, if_true, Bool.false_eq_true, if_false,
      List.count_nil] at hl hcount
    omega
  | finalize | finalized =>
    refine hr.congr rfl (fun i => ?_) id
    have hl := hl i
    simp only [Thread.records, total_cons, Drop.records, List.count_nil] at hl
    omega
  | @leak ds pc g indices next hpoison =>
    obtain ⟨-, -, -, -, hrf⟩ := genFields_refs (α := α) next
    obtain ⟨hnil, -, -, -, hpc⟩ :=
      Pc.refs_of_quiet ((hi.iteration.threads t _ ht).dropping (List.cons_ne_nil _ _))
    refine hr.leak rfl (fun i => ?_) hpoison
    have hl := hl i
    obtain ⟨hpc, hpc'⟩ := hpc i
    simp only [Thread.records, total_cons, Drop.records, hnil, List.append_nil, total_append, hrf,
      hpc, hpc'] at hl
    omega
  | finalizing hfinalize =>
    refine hr.finalize hfinalize rfl (fun i => ?_) rfl
    have hl := hl i
    simp only [Thread.records, total_cons, Drop.records, List.count_cons] at hl
    rw [toNat_eq_ite]
    omega
  | dropItem =>
    refine hr.congr rfl (fun i => ?_) id
    have hl := hl i
    simp only [Thread.records, total_cons, Drop.records] at hl
    omega
  | @dropFields ds pc u g next =>
    obtain ⟨-, -, -, -, hrf⟩ := genFields_refs (α := α) next
    refine hr.congr rfl (fun i => ?_) id
    have hl := hl i
    simp only [Thread.records, total_cons, Drop.records, total_append, hrf] at hl
    omega
  | lock hpc hlocked hpoison =>
    obtain ⟨-, hpc, -⟩ := Pc.refs_of_locks hpc
    refine hr.congr rfl (fun i => ?_) id
    have hl := hl i
    simp only [Thread.records, hpc] at hl
    omega
  | unlock hpc =>
    obtain ⟨-, hpc, -⟩ := Pc.refs_of_unlocks hpc
    refine hr.congr rfl (fun i => ?_) id
    have hl := hl i
    simp only [Thread.records, hpc] at hl
    omega
  | unwind hpc hpoison hlog =>
    obtain ⟨-, -, -, -, hpc⟩ := Pc.refs_of_waiting hpc
    refine hr.congr rfl (fun i => ?_) id
    have hl := hl i
    simp only [Thread.records, hpc, total_nil] at hl
    omega
  | full | reserve | reject | count | exhaust | ret | observe | dropSlab | fillVacant | dropVacant
  | iterNone | iterDrop | entryRemove | entryDrop | readerDrop | setIters =>
    refine hr.congr rfl (fun i => ?_) id
    have hl := hl i
    simp only [Thread.records, total_cons, total_nil, Drop.records, Pc.records] at hl
    omega
  | panicVacant hv =>
    refine hr.congr rfl (fun i => ?_) (by simp [State.poison])
    have hl := hl i
    simp only [Thread.records, State.poison] at hl
    omega
  | insert hinsert =>
    have hsame : load = c.load := by
      funext i
      have hl := hl i
      simp only [Thread.records, Pc.records] at hl
      omega
    rw [hsame]
    exact hr.insert hinsert rfl rfl
  | mark hmark =>
    refine hr.mark hmark rfl (fun i => ?_) rfl
    have hl := hl i
    simp only [Thread.records, Pc.records] at hl
    omega
  | poison hm hbit =>
    refine hr.congr rfl (fun i => ?_) (by simp [State.poison])
    have hl := hl i
    simp only [Thread.records, Pc.records, State.poison] at hl
    omega
  | @record u m idx g x htarget hx halive =>
    obtain ⟨-, -, -, -, hrm, -, -, hnext, -⟩ := MarkFor.refs (α := α) m
    refine hr.congr rfl (fun i => ?_) id
    have hcount := count_livePending_set hx
      { x with pendingRemoves := x.pendingRemoves ++ [idx] } i
    have halive' : ({ x with pendingRemoves := x.pendingRemoves ++ [idx] } : Gen).alive = true :=
      halive
    rw [halive, halive'] at hcount
    have hl := hl i
    have hrec : (Pc.record m idx : Pc α).records i = (idx == i).toNat := rfl
    simp only [Thread.records, total_nil, hrm, hnext, hrec] at hl
    simp only [if_true, List.count_append, List.count_singleton] at hcount
    rw [toNat_eq_ite] at hl
    omega
  | @startIter u clear remaining =>
    refine hr.congr rfl (fun i => ?_) id
    have hl := hl i
    cases clear <;> simp only [Thread.records, Pc.records, if_true, Bool.false_eq_true,
      if_false] at hl <;> omega
  | @clearNext u slab im idx x it y hslab him hnext hy halive =>
    have hlive := livePending_set_strong hy (alive_acquired halive)
    refine hr.congr rfl (fun i => ?_) id
    have hl := hl i
    simp only [Thread.records, Pc.records, hlive] at hl
    omega
  | @advance pc pc' u slab x im hpc him hslab hx =>
    obtain ⟨-, -, hpc, -⟩ := hpc.refs
    have hlive : livePending (c.state.nextGeneration slab x).gens = livePending c.state.gens := by
      have hset : livePending (c.state.gens.set slab.curGen
          { x with nextGen := some c.state.gens.length }) = livePending c.state.gens :=
        livePending_set hx rfl rfl
      rw [livePending] at hset
      simp only [State.nextGeneration, livePending, List.flatMap_append, hset]
      simp
    refine hr.congr rfl (fun i => ?_) id
    have hl := hl i
    obtain ⟨hpc, hpc'⟩ := hpc i
    simp only [Thread.records, total_cons, total_nil, Drop.records, hpc, hpc', hlive] at hl
    omega
  | @newReader pc u g x hkind hx halive =>
    have hlive : livePending (c.state.withReader g x).gens = livePending c.state.gens :=
      livePending_set_strong hx (alive_acquired halive)
    have hpcr : ∀ i, pc.records i = 0 := by
      rcases hkind with ⟨-, ⟨clear, rfl⟩ | ⟨rfl, -⟩⟩ | ⟨rfl, -⟩ <;> exact fun _ => rfl
    have hidle : ∀ i, (Pc.idle : Pc α).records i = 0 := fun _ => rfl
    refine hr.congr rfl (fun i => ?_) id
    have hl := hl i
    simp only [Thread.records, hpcr, hidle, hlive] at hl
    omega
  | enter husable hpc =>
    obtain ⟨-, -, hpc, -⟩ := Pc.refs_of_entersCall hpc
    have hidle : ∀ i, (Pc.idle : Pc α).records i = 0 := fun _ => rfl
    refine hr.congr rfl (fun i => ?_) id
    have hl := hl i
    simp only [Thread.records, hpc, hidle] at hl
    omega
  | @iterNext u e slab im idx x it y hiterable hslab him hnext hy halive =>
    have hlive := livePending_set_strong hy (alive_acquired halive)
    refine hr.congr rfl (fun i => ?_) id
    have hl := hl i
    simp only [Thread.records, hlive] at hl
    omega

end ZprUtils.RcuCslab
