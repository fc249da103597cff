import Mathlib.Algebra.BigOperators.Group.List.Basic
import Mathlib.Algebra.Ring.Nat
import ZprUtils.Foundations.Handles

/-!
# Pools of threads

A pool is a list of threads, and a step of one thread replaces its entry. What the threads own
together is the total of a weight over the pool: the number of references to an object, of guards
of a lock, or of calls in progress. A step moves the total by the difference of the weights of the
one thread that took it.

## Main definitions

* `total` — the total of a weight over a pool.

## Main results

* `total_set` — the total after a step of one thread.
* `flatMap_set_perm` — the same for the lists of what the threads own.
-/

namespace ZprUtils

variable {τ β : Type*} {pool : List τ} {w : τ → Nat} {t u : Nat} {th th' uh : τ}

/-- The total of the weight `w` over all threads. -/
def total (w : τ → Nat) (pool : List τ) : Nat := (pool.map w).sum

/-- A step of thread `t` moves the total by the weights of that thread; the weights of the others
may depend on what the threads share, as long as the step keeps them. -/
theorem total_set_of_others {w' : τ → Nat} (h : pool[t]? = some th)
    (hothers : ∀ (u : Nat) (uh : τ), pool[u]? = some uh → u ≠ t → w' uh = w uh) (th' : τ) :
    total w' (pool.set t th') + w th = total w pool + w' th' := by
  obtain ⟨l₁, l₂, rfl, hlen, hset⟩ := exists_split_of_getElem? h
  have hleft : l₁.map w' = l₁.map w := by
    refine List.map_congr_left fun uh hu => ?_
    obtain ⟨u, hu⟩ := List.getElem?_of_mem hu
    have hlt := (List.getElem?_eq_some_iff.mp hu).1
    refine hothers u uh ?_ (by omega)
    rw [List.getElem?_append_left hlt, hu]
  have hright : l₂.map w' = l₂.map w := by
    refine List.map_congr_left fun uh hu => ?_
    obtain ⟨u, hu⟩ := List.getElem?_of_mem hu
    refine hothers (l₁.length + (u + 1)) uh ?_ (by omega)
    rw [List.getElem?_append_right (Nat.le_add_right _ _), Nat.add_sub_cancel_left,
      List.getElem?_cons_succ, hu]
  rw [hset]
  simp only [total, List.map_append, List.map_cons, List.sum_append, List.sum_cons, hleft, hright]
  omega

theorem total_set (h : pool[t]? = some th) (th' : τ) :
    total w (pool.set t th') + w th = total w pool + w th' :=
  total_set_of_others h (fun _ _ _ _ => rfl) th'

@[simp] theorem total_nil : total w [] = 0 := rfl

@[simp] theorem total_cons : total w (th :: pool) = w th + total w pool := by
  rw [total, total, List.map_cons, List.sum_cons]

@[simp] theorem total_append (pool' : List τ) :
    total w (pool ++ pool') = total w pool + total w pool' := by
  rw [total, total, total, List.map_append, List.sum_append]

theorem le_total (h : pool[t]? = some th) : w th ≤ total w pool := by
  obtain ⟨l₁, l₂, hl, -, -⟩ := exists_split_of_getElem? h
  rw [hl, total, List.map_append, List.map_cons, List.sum_append, List.sum_cons]
  omega

/-- Two threads own no more than all threads do. -/
theorem add_le_total (h : pool[t]? = some th) (hu : pool[u]? = some uh) (hne : t ≠ u) :
    w th + w uh ≤ total w pool := by
  induction pool generalizing t u with
  | nil => simp at h
  | cons a pool ih =>
    rw [total_cons]
    cases t with
    | zero =>
      cases u with
      | zero => exact absurd rfl hne
      | succ u =>
        rw [List.getElem?_cons_zero, Option.some.injEq] at h
        rw [List.getElem?_cons_succ] at hu
        have hle : w uh ≤ total w pool := le_total hu
        rw [h]
        omega
    | succ t =>
      rw [List.getElem?_cons_succ] at h
      cases u with
      | zero =>
        rw [List.getElem?_cons_zero, Option.some.injEq] at hu
        have hle : w th ≤ total w pool := le_total h
        rw [hu]
        omega
      | succ u =>
        rw [List.getElem?_cons_succ] at hu
        have hle := ih h hu (fun htu => hne (congrArg Nat.succ htu))
        omega

theorem total_pos : 0 < total w pool ↔ ∃ (t : Nat) (th : τ), pool[t]? = some th ∧ 0 < w th := by
  constructor
  · intro h
    induction pool with
    | nil => simp [total] at h
    | cons a pool ih =>
      rw [total_cons] at h
      by_cases ha : 0 < w a
      · exact ⟨0, a, rfl, ha⟩
      · obtain ⟨t, th, ht, hpos⟩ := ih (by omega)
        exact ⟨t + 1, th, ht, hpos⟩
  · rintro ⟨t, th, ht, hpos⟩
    exact hpos.trans_le (le_total ht)

theorem total_eq_zero (h : ∀ (t : Nat) (th : τ), pool[t]? = some th → w th = 0) :
    total w pool = 0 := by
  by_contra hne
  obtain ⟨t, th, ht, hpos⟩ := total_pos.mp (Nat.pos_of_ne_zero hne)
  exact absurd (h t th ht) (Nat.pos_iff_ne_zero.mp hpos)

/-- The total when all other threads own nothing: it is what the thread itself owns. -/
theorem total_eq_of_others (h : pool[t]? = some th)
    (hothers : ∀ (u : Nat) (uh : τ), pool[u]? = some uh → u ≠ t → w uh = 0) :
    total w pool = w th := by
  have hset : total (fun _ => 0) (pool.set t th) + w th = total w pool + 0 :=
    total_set_of_others h (fun u uh hu hne => (hothers u uh hu hne).symm) th
  have hzero : total (fun _ => 0) (pool.set t th) = 0 := total_eq_zero fun _ _ _ => rfl
  omega

theorem total_replicate {n : Nat} (h : w th = 0) : total w (List.replicate n th) = 0 := by
  refine total_eq_zero fun t uh ht => ?_
  rw [(List.mem_replicate.mp (List.mem_of_getElem? ht)).2, h]

/-- What the threads own as lists, after a step of one of them, up to the order: the lists of the
others are the same. -/
theorem flatMap_set_perm (f : τ → List β) (h : pool[t]? = some th) (th' : τ) :
    (f th ++ (pool.set t th').flatMap f).Perm (f th' ++ pool.flatMap f) := by
  obtain ⟨l₁, l₂, hl, -, hset⟩ := exists_split_of_getElem? h
  rw [hset, hl]
  simp only [List.flatMap_append, List.flatMap_cons]
  calc f th ++ (l₁.flatMap f ++ (f th' ++ l₂.flatMap f))
      = f th ++ l₁.flatMap f ++ f th' ++ l₂.flatMap f := by simp only [List.append_assoc]
    _ |>.Perm (f th' ++ (f th ++ l₁.flatMap f) ++ l₂.flatMap f) :=
        List.perm_append_comm.append_right _
    _ |>.Perm (f th' ++ (l₁.flatMap f ++ f th) ++ l₂.flatMap f) :=
        (List.perm_append_comm.append_left _).append_right _
    _ = f th' ++ (l₁.flatMap f ++ (f th ++ l₂.flatMap f)) := by simp only [List.append_assoc]

end ZprUtils
