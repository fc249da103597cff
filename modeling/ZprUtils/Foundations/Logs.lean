import Mathlib.Data.List.Perm.Subperm

/-!
# Logs

A log is a list of events, and what has happened to one object is what a partial function finds in
it. When the entries found carry a key, two logs of entries that agree for every key are
permutations of each other, although the entries of different keys may be mixed differently.

## Main definitions

* `entriesOf` — the entries of one key.

## Main results

* `perm_of_entriesOf`, `subperm_of_entriesOf` — comparison of logs key by key.
-/

namespace ZprUtils

variable {ε κ β : Type*} {log : List ε} {f f₁ f₂ : ε → Option β} {e : ε} {b : β}

theorem filterMap_concat_of_some (h : f e = some b) :
    (log ++ [e]).filterMap f = log.filterMap f ++ [b] := by
  rw [List.filterMap_append, List.filterMap_cons_some h, List.filterMap_nil]

theorem filterMap_concat_of_none (h : f e = none) :
    (log ++ [e]).filterMap f = log.filterMap f := by
  rw [List.filterMap_append, List.filterMap_cons_none h, List.filterMap_nil, List.append_nil]

/-- Two kinds of entries, each event being of one of them. -/
theorem filterMap_perm_append (h : ∀ e, f e = f₁ e ∧ f₂ e = none ∨ f e = f₂ e ∧ f₁ e = none) :
    (log.filterMap f).Perm (log.filterMap f₁ ++ log.filterMap f₂) := by
  induction log with
  | nil => exact .nil
  | cons e log ih =>
    rcases h e with ⟨hf, hnone⟩ | ⟨hf, hnone⟩
    · rw [List.filterMap_cons_none hnone]
      cases he : f₁ e with
      | none => rwa [List.filterMap_cons_none (hf.trans he), List.filterMap_cons_none he]
      | some b =>
        rw [List.filterMap_cons_some (hf.trans he), List.filterMap_cons_some he]
        exact ih.cons b
    · rw [List.filterMap_cons_none hnone]
      cases he : f₂ e with
      | none => rwa [List.filterMap_cons_none (hf.trans he), List.filterMap_cons_none he]
      | some b =>
        rw [List.filterMap_cons_some (hf.trans he), List.filterMap_cons_some he]
        exact (ih.cons b).trans List.perm_middle.symm

theorem subperm_map {γ : Type*} {l l' : List β} (g : β → γ) (h : l.Subperm l') :
    (l.map g).Subperm (l'.map g) := by
  obtain ⟨l₀, hperm, hsub⟩ := h
  exact ⟨l₀.map g, hperm.map g, hsub.map g⟩

section

variable [DecidableEq κ] {l l' : List (κ × β)}

/-- The entries of key `k`. -/
def entriesOf (k : κ) (l : List (κ × β)) : List β :=
  l.filterMap fun p => if p.1 = k then some p.2 else none

theorem entriesOf_append (k : κ) (l l' : List (κ × β)) :
    entriesOf k (l ++ l') = entriesOf k l ++ entriesOf k l' :=
  List.filterMap_append ..

theorem entriesOf_cons_self (k : κ) (b : β) (l : List (κ × β)) :
    entriesOf k ((k, b) :: l) = b :: entriesOf k l :=
  List.filterMap_cons_some (if_pos rfl)

theorem entriesOf_cons_ne {k k' : κ} (h : k' ≠ k) (b : β) (l : List (κ × β)) :
    entriesOf k ((k', b) :: l) = entriesOf k l :=
  List.filterMap_cons_none (if_neg h)

theorem entriesOf_eq_nil {k : κ} (h : ∀ b, (k, b) ∉ l) : entriesOf k l = [] := by
  refine List.filterMap_eq_nil_iff.mpr fun p hp => if_neg fun hk => ?_
  exact h p.2 (hk ▸ hp)

/-- A key that is used once. -/
theorem entriesOf_of_nodup {k : κ} (h : (l.map Prod.fst).Nodup) (hmem : (k, b) ∈ l) :
    entriesOf k l = [b] := by
  induction l with
  | nil => exact absurd hmem List.not_mem_nil
  | cons p l ih =>
    obtain ⟨k', b'⟩ := p
    rw [List.map_cons, List.nodup_cons] at h
    have hnew : ∀ b, (k', b) ∉ l := fun b hb => h.1 (List.mem_map.mpr ⟨_, hb, rfl⟩)
    rcases List.mem_cons.mp hmem with heq | hmem
    · obtain ⟨rfl, rfl⟩ := Prod.mk.inj heq
      rw [entriesOf_cons_self, entriesOf_eq_nil hnew]
    · have hne : k' ≠ k := by
        rintro rfl
        exact hnew b hmem
      rw [entriesOf_cons_ne hne, ih h.2 hmem]

theorem count_entriesOf [DecidableEq β] (k : κ) (b : β) (l : List (κ × β)) :
    (entriesOf k l).count b = l.count (k, b) := by
  induction l with
  | nil => rfl
  | cons p l ih =>
    obtain ⟨k', b'⟩ := p
    rw [List.count_cons, ← ih]
    by_cases hk : k' = k
    · subst hk
      rw [entriesOf_cons_self, List.count_cons]
      simp
    · rw [entriesOf_cons_ne hk]
      simp [hk]

/-- Logs with fewer entries of every key: if this holds at each key, it holds of the whole log up to
the order. So counting can be done key by key. -/
theorem subperm_of_entriesOf (h : ∀ k, (entriesOf k l).Subperm (entriesOf k l')) :
    l.Subperm l' := by
  classical
  refine List.subperm_ext_iff.mpr fun p _ => ?_
  rw [← count_entriesOf, ← count_entriesOf]
  exact (h p.1).count_le p.2

/-- Logs with the same entries of every key. -/
theorem perm_of_entriesOf (h : ∀ k, entriesOf k l = entriesOf k l') : l.Perm l' := by
  classical
  refine List.perm_iff_count.mpr fun p => ?_
  rw [← count_entriesOf, ← count_entriesOf, h]

end

end ZprUtils
