import ZprUtils.Uds.Receive
import ZprUtils.Uds.Send

/-!
# Owners of descriptors

A descriptor is closed by its owner, so it must not have two of them. The descriptors of a process
are owned by the ancillary data of one socket or elsewhere. Sends and receives keep one owner for
each, provided that no failed receive finds descriptors at the start of the buffer.

## Main definitions

* `FdState`, `FdStep` — the descriptors of a process, and what can happen to them.
* `FdState.Sound` — the invariant: every owned descriptor is open and has one owner.

## Main results

* `FdState.Sound.step` — the invariant is kept.
* `recvFails_intact_iff` — when failed receives leave everything as it was, and what follows.
-/

namespace ZprUtils.Uds

/-- The descriptors of a process: the open ones, the ancillary data of a socket, and the descriptors
that are owned elsewhere. -/
structure FdState where
  opened : List RawFd
  ancillary : SocketAncillary
  elsewhere : List RawFd
  deriving DecidableEq, Repr

/-- What can happen to the descriptors. -/
inductive FdAct where
  | opens (fd : RawFd)
  | closes (fd : RawFd)
  | addFds (fds : List RawFd)
  | clear
  | intoMessages
  | send (res errno : Int)
  | recvFails (errno : Int)
  | recv (msg : RecvMsg) (n : Nat) (ms : List Cmsg)

/-- The open descriptors after some are closed. -/
def closeFds (opened closed : List RawFd) : List RawFd := opened.filter (· ∉ closed)

@[simp] theorem mem_closeFds {opened closed : List RawFd} {fd : RawFd} :
    fd ∈ closeFds opened closed ↔ fd ∈ opened ∧ fd ∉ closed := by
  simp [closeFds]

namespace FdState

/-- All owners, by the descriptor they own. -/
def owners (s : FdState) : List RawFd := s.elsewhere ++ ownedFds s.ancillary.fds

/-- Every owned descriptor is open and has one owner. -/
structure Sound (s : FdState) : Prop where
  nodup : s.owners.Nodup
  opened : ∀ fd ∈ s.owners, fd ∈ s.opened

end FdState

/-- The steps. A new descriptor, also one that `recvmsg` delivers, is not an open one. -/
inductive FdStep : FdState → FdAct → FdState → Prop
  | opens {s : FdState} {fd : RawFd} (hfresh : fd ∉ s.opened) :
      FdStep s (.opens fd) ⟨fd :: s.opened, s.ancillary, fd :: s.elsewhere⟩
  | closes {s : FdState} {fd : RawFd} (hfd : fd ∈ s.elsewhere) :
      FdStep s (.closes fd) ⟨closeFds s.opened [fd], s.ancillary, s.elsewhere.erase fd⟩
  | addFds {s : FdState} {fds : List RawFd} :
      FdStep s (.addFds fds) { s with ancillary := (s.ancillary.addFds fds).2 }
  | clear {s : FdState} :
      FdStep s .clear
        ⟨closeFds s.opened (ownedFds s.ancillary.fds), s.ancillary.clear, s.elsewhere⟩
  | intoMessages {s : FdState} :
      FdStep s .intoMessages ⟨s.opened, .new s.ancillary.addr s.ancillary.buffer,
        s.elsewhere ++ ownedFds (s.ancillary.intoMessages.getD [])⟩
  | send {s : FdState} {res errno : Int} {result : Except Int Nat} {a : SocketAncillary}
      (hsend : udsSendVectoredWithAncillary s.ancillary res errno = .ok (result, a)) :
      FdStep s (.send res errno) { s with ancillary := a }
  | recvFails {s : FdState} {errno : Int} {r : Received}
      (hrecv : udsRecvVectoredWithAncillary s.ancillary (s.ancillary.recvFails errno) = .ok r) :
      FdStep s (.recvFails errno) ⟨closeFds s.opened r.closed, r.ancillary, s.elsewhere⟩
  | recv {s : FdState} {msg : RecvMsg} {n : Nat} {ms : List Cmsg} {r : Received}
      (hdelivers : Delivers s.ancillary msg n ms) (hfresh : ∀ fd ∈ delivered ms, fd ∉ s.opened)
      (hrecv : udsRecvVectoredWithAncillary s.ancillary msg = .ok r) :
      FdStep s (.recv msg n ms)
        ⟨closeFds (delivered ms ++ s.opened) r.closed, r.ancillary, s.elsewhere⟩

/-- A run, with the state before each step. -/
def FdState.Run (s : FdState) (es : List (FdState × FdAct)) (s' : FdState) : Prop :=
  Steps (fun s (e : FdState × FdAct) s' => e.1 = s ∧ FdStep s e.2 s') s es s'

/-- The condition on a step: a failed receive finds nothing in the buffer. -/
def FdAct.Meets (s : FdState) : FdAct → Prop
  | recvFails _ => s.ancillary.FindsNothing
  | _ => True

/-! ### The invariant -/

section

variable {s s' : FdState} {act : FdAct}

@[simp] theorem ownedFds_append_borrowed (fds : List CowFd) (raw : List RawFd) :
    ownedFds (fds ++ raw.map CowFd.borrowed) = ownedFds fds := by
  rw [ownedFds, List.filterMap_append, List.filterMap_map]
  have hnone : raw.filterMap (CowFd.closes ∘ CowFd.borrowed) = [] :=
    List.filterMap_eq_nil_iff.mpr fun _ _ => rfl
  rw [hnone, List.append_nil, ownedFds]

@[simp] theorem ownedFds_map_owned (raw : List RawFd) :
    ownedFds (raw.map CowFd.owned) = raw := by
  rw [ownedFds, List.filterMap_map]
  exact List.filterMap_some

theorem ownedFds_intoMessages (a : SocketAncillary) :
    ownedFds (a.intoMessages.getD []) = ownedFds a.fds := by
  rw [SocketAncillary.intoMessages]
  split
  · next hnil =>
    rw [List.isEmpty_iff.mp hnil]
    rfl
  · rfl

/-- The descriptors of the ancillary data are closed and replaced by new ones. The new ones are open
and were not open before, so nobody else can own them. -/
theorem FdState.Sound.replace (h : s.Sound) {opened : List RawFd} {a : SocketAncillary}
    (hopened : ∀ fd ∈ s.opened, fd ∈ opened) (hnodup : (ownedFds a.fds).Nodup)
    (hfresh : ∀ fd ∈ ownedFds a.fds, fd ∈ opened ∧ fd ∉ s.opened) :
    FdState.Sound ⟨closeFds opened (ownedFds s.ancillary.fds), a, s.elsewhere⟩ := by
  obtain ⟨helse, -, hdisjoint⟩ := List.nodup_append.mp h.nodup
  constructor
  · refine List.nodup_append.mpr ⟨helse, hnodup, ?_⟩
    rintro fd hfd _ hfd' rfl
    exact (hfresh fd hfd').2 (h.opened fd (List.mem_append_left _ hfd))
  · intro fd hfd
    rw [mem_closeFds]
    rcases List.mem_append.mp hfd with hfd | hfd
    · exact ⟨hopened fd (h.opened fd (List.mem_append_left _ hfd)),
        fun howned => hdisjoint fd hfd fd howned rfl⟩
    · exact ⟨(hfresh fd hfd).1,
        fun howned => (hfresh fd hfd).2 (h.opened fd (List.mem_append_right _ howned))⟩

/-- Nothing changes owner and nothing is closed. -/
theorem FdState.Sound.keep (h : s.Sound) (howners : s'.owners = s.owners)
    (hopened : ∀ fd ∈ s.opened, fd ∈ s'.opened) : s'.Sound :=
  ⟨howners ▸ h.nodup, fun fd hfd => hopened fd (h.opened fd (howners ▸ hfd))⟩

theorem FdState.Sound.closes (h : s.Sound) {fd : RawFd} (hfd : fd ∈ s.elsewhere) :
    FdState.Sound ⟨closeFds s.opened [fd], s.ancillary, s.elsewhere.erase fd⟩ := by
  obtain ⟨helse, -, hdisjoint⟩ := List.nodup_append.mp h.nodup
  have hsub : (s.elsewhere.erase fd ++ ownedFds s.ancillary.fds).Sublist s.owners :=
    List.erase_sublist.append (List.Sublist.refl _)
  refine ⟨hsub.nodup h.nodup, fun x hx => ?_⟩
  rw [mem_closeFds, List.mem_singleton]
  refine ⟨h.opened x (hsub.subset hx), ?_⟩
  rintro rfl
  rcases List.mem_append.mp hx with hx | hx
  · exact helse.not_mem_erase hx
  · exact hdisjoint x hfd x hx rfl

/-- **A receive from the kernel** gives every descriptor that it takes its one owner. The
descriptors that the kernel delivers are new, and those that were stored before are closed or stay
where they are. -/
theorem FdState.Sound.recv (h : s.Sound) {msg : RecvMsg} {n : Nat} {ms : List Cmsg} {r : Received}
    (hdelivers : Delivers s.ancillary msg n ms) (hfresh : ∀ fd ∈ delivered ms, fd ∉ s.opened)
    (hrecv : udsRecvVectoredWithAncillary s.ancillary msg = .ok r) :
    FdState.Sound ⟨closeFds (delivered ms ++ s.opened) r.closed, r.ancillary, s.elsewhere⟩ := by
  have hread := readable_of_udsRecv hrecv
  obtain rfl := Except.ok.inj ((hdelivers.udsRecv_eq hread).symm.trans hrecv)
  match ms, hdelivers, hfresh with
  | .rights fds :: ms, hdelivers, hfresh =>
    have hnodup := (List.nodup_append.mp hdelivers.nodup).1
    refine h.replace (fun fd hfd => List.mem_append_right _ hfd) ?_ fun fd hfd => ?_
    · rwa [ownedFds_map_owned]
    · rw [ownedFds_map_owned] at hfd
      have hmem : fd ∈ delivered (.rights fds :: ms) := List.mem_append_left _ hfd
      exact ⟨List.mem_append_left _ hmem, hfresh fd hmem⟩
  | [], _, _ => exact h.keep rfl fun fd hfd => by simp [hfd]
  | .other .. :: _, _, _ => exact h.keep rfl fun fd hfd => by simp [hfd]

/-- **The invariant is kept** by every step that meets the condition. Only a failed receive has one:
it could turn the number of a descriptor that was sent into a second owner of it. -/
theorem FdState.Sound.step (h : s.Sound) (hmeets : act.Meets s) (hstep : FdStep s act s') :
    s'.Sound := by
  cases hstep with
  | @opens fd hfresh =>
    refine ⟨List.nodup_cons.mpr ⟨fun hfd => hfresh (h.opened fd hfd), h.nodup⟩, fun x hx => ?_⟩
    rcases List.mem_cons.mp hx with rfl | hx
    · exact List.mem_cons_self
    · exact List.mem_cons_of_mem _ (h.opened x hx)
  | closes hfd => exact h.closes hfd
  | addFds =>
    exact h.keep (congrArg (s.elsewhere ++ ·) (ownedFds_append_borrowed ..)) fun _ hfd => hfd
  | clear => exact h.replace (fun _ hfd => hfd) .nil nofun
  | intoMessages =>
    refine h.keep ?_ fun _ hfd => hfd
    rw [owners, owners, ownedFds_intoMessages]
    exact List.append_nil _
  | @send res errno result a hsend =>
    obtain ⟨⟨controllen, a'⟩, hcontrol, ha⟩ := except_bind_eq_ok.mp hsend
    obtain ⟨-, rfl⟩ := Prod.mk.inj (Except.ok.inj ha)
    exact h.keep (congrArg (s.elsewhere ++ ownedFds ·) (sendControl_eq_ok hcontrol).2.1)
      fun _ hfd => hfd
  | @recvFails errno r hrecv =>
    obtain ⟨r', hr', hintact⟩ := (udsRecv_failed_iff s.ancillary errno).mpr hmeets
    obtain rfl := Except.ok.inj (hr'.symm.trans hrecv)
    refine h.keep (by rw [owners, hintact.ancillary]; rfl) fun fd hfd => ?_
    simpa [hintact.closed] using hfd
  | recv hdelivers hfresh hrecv => exact h.recv hdelivers hfresh hrecv

/-- In a run whose failed receives find no descriptors in the buffer no descriptor has two
owners. -/
theorem FdState.Sound.run {es : List (FdState × FdAct)} (h : s.Sound) (hrun : s.Run es s')
    (hmeets : ∀ e ∈ es, e.2.Meets e.1) : s'.Sound := by
  refine Steps.history (P := fun es s' => (∀ e ∈ es, e.2.Meets e.1) → s'.Sound) ?_ hrun
    (fun _ => h) hmeets
  rintro es s₁ ⟨s₂, act⟩ s₃ ih ⟨rfl, hstep⟩ hmeets
  rw [List.forall_mem_append, List.forall_mem_singleton] at hmeets
  exact (ih hmeets.1).step hmeets.2 hstep

/-- **Failed receives.** A failed receive returns its error and leaves everything as it was exactly
when the buffer is too short for a header, or it is aligned and does not begin with descriptors. In
every run whose failed receives meet this condition no descriptor ever has two owners. -/
theorem recvFails_intact_iff (a : SocketAncillary) (errno : Int) :
    ((∃ r, udsRecvVectoredWithAncillary a (a.recvFails errno) = .ok r ∧ r.Intact a errno) ↔
      a.FindsNothing) ∧
    ∀ (s s' : FdState) (es : List (FdState × FdAct)), s.Sound → s.Run es s' →
      (∀ e ∈ es, e.2.Meets e.1) → s'.owners.Nodup :=
  ⟨udsRecv_failed_iff a errno, fun _ _ _ hsound hrun hmeets => (hsound.run hrun hmeets).nodup⟩

/-- A receive that is retried after a failure, on a buffer of zeros. -/
theorem recvFails_intact_retry :
    ∃ es s', FdState.Run ⟨[5], .new 64 (List.replicate 20 0), [5]⟩ es s' ∧
    es.map Prod.snd =
      [.recvFails 11, .recv ⟨3, 0, (Cmsg.rights [6]).bytes, 20⟩ 3 [.rights [6]]] ∧
    s'.owners = [5, 6] ∧ s'.owners.Nodup := by
  have hcontrol : ControlBytes [.rights [6]] ((Cmsg.rights [6]).bytes ++ []) :=
    .last (by decide) (by decide)
  rw [List.append_nil] at hcontrol
  have hfails : FdStep ⟨[5], .new 64 (List.replicate 20 0), [5]⟩ (.recvFails 11) _ := .recvFails rfl
  have hvalid : ∀ fd ∈ delivered [.rights [6]], fd ≠ -1 := by simp [delivered, Cmsg.fds]
  have hnodup : (delivered [.rights [6]]).Nodup := by simp [delivered, Cmsg.fds]
  have hfresh : ∀ fd ∈ delivered [.rights [6]], fd ∉ [5] := by simp [delivered, Cmsg.fds]
  have hrecv : FdStep ⟨[5], .new 64 (List.replicate 20 0), [5]⟩
      (.recv ⟨3, 0, (Cmsg.rights [6]).bytes, 20⟩ 3 [.rights [6]]) _ :=
    .recv (hcontrol.delivers rfl hvalid hnodup 3) hfresh rfl
  have hrun := ((Steps.nil _).snoc
    (r := fun s (e : FdState × FdAct) s' => e.1 = s ∧ FdStep s e.2 s')
    (e := (_, _)) ⟨rfl, hfails⟩).snoc (e := (_, _)) ⟨rfl, hrecv⟩
  refine ⟨_, _, hrun, rfl, rfl, (recvFails_intact_iff (.new 64 []) 11).2 _ _ _ ?_ hrun ?_⟩
  · exact ⟨List.pairwise_singleton _ 5, fun _ h => h⟩
  · simp only [List.nil_append, List.cons_append, List.forall_mem_cons]
    exact ⟨show SocketAncillary.FindsNothing _ by decide, trivial, by simp⟩

/-- After a send on the same buffer a failed receive makes the descriptor that was sent owned a
second time. On a buffer at an odd address a failed receive does not return. -/
theorem recvFails_not_intact :
    (∃ es s', FdState.Run ⟨[5], .new 64 (List.replicate 24 0), [5]⟩ es s' ∧
      es.map Prod.snd = [.addFds [5], .send 3 0, .recvFails 11] ∧
      FdState.Sound ⟨[5], .new 64 (List.replicate 24 0), [5]⟩ ∧ ¬s'.owners.Nodup) ∧
    ∃ a : SocketAncillary, a = .new 65 (List.replicate 24 0) ∧
      udsRecvVectoredWithAncillary a (a.recvFails 11) = .error .undefined := by
  refine ⟨?_, _, rfl, udsRecv_of_not_readable (by decide)⟩
  have hadd : FdStep ⟨[5], .new 64 (List.replicate 24 0), [5]⟩ (.addFds [5]) _ := .addFds
  have hsend : FdStep ⟨[5], ⟨64, List.replicate 24 0, [.borrowed 5]⟩, [5]⟩ (.send 3 0) _ :=
    .send rfl
  have hfails : FdStep
      ⟨[5], ⟨64, (Cmsg.rights [5]).bytes ++ List.replicate 4 0, [.borrowed 5]⟩, [5]⟩
      (.recvFails 11) _ := .recvFails rfl
  refine ⟨_, _, (((Steps.nil _).snoc (e := (_, _)) ⟨rfl, hadd⟩).snoc (e := (_, _))
    ⟨rfl, hsend⟩).snoc (e := (_, _)) ⟨rfl, hfails⟩, rfl,
    ⟨List.pairwise_singleton _ 5, fun _ h => h⟩, ?_⟩
  decide

end

end ZprUtils.Uds
