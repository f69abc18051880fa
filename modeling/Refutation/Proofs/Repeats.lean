import Mathlib.Data.List.Induction
import Mathlib.Data.List.Nodup

/-! # Erasing repeats

Assumptions, antecedents and propagated clauses are listed without repeats: of equal members the
first is kept.  A list without repeats stays as it is (`eraseDups_eq_self_iff`), and repeats may be
erased before members are looked up or others are appended, or only afterwards
(`eraseDups_filterMap_congr`, `eraseDups_append_congr`). -/

namespace Refutation

variable {α β : Type} [BEq α] [BEq β]

theorem eraseDups_sublist : ∀ xs : List α, xs.eraseDups.Sublist xs
  | [] => List.Sublist.refl _
  | x :: xs => by
      rw [List.eraseDups_cons]
      exact ((eraseDups_sublist _).trans List.filter_sublist).cons_cons x
  termination_by xs => xs.length
  decreasing_by exact Nat.lt_succ_of_le (List.length_filter_le _ _)

theorem nodup_eraseDups [LawfulBEq α] : ∀ xs : List α, xs.eraseDups.Nodup
  | [] => List.nodup_nil
  | x :: xs => by
      rw [List.eraseDups_cons, List.nodup_cons]
      refine ⟨fun h => ?_, nodup_eraseDups _⟩
      rw [List.mem_eraseDups, List.mem_filter] at h
      simp at h
  termination_by xs => xs.length
  decreasing_by exact Nat.lt_succ_of_le (List.length_filter_le _ _)

variable [LawfulBEq α] [LawfulBEq β] {xs ys zs : List α} {g : α → Option β}

theorem eraseDups_eq_of_lawful {α : Type} (inst inst' : BEq α) [@LawfulBEq α inst]
    [@LawfulBEq α inst'] (xs : List α) :
    @List.eraseDups α inst xs = @List.eraseDups α inst' xs := by
  rw [lawful_beq_subsingleton inst inst']

theorem eraseDups_eq_self_iff : xs.eraseDups = xs ↔ xs.Nodup := by
  constructor
  · intro hsame
    rw [← hsame]
    exact nodup_eraseDups xs
  · intro hnodup
    induction xs with
    | nil => rfl
    | cons x xs ih =>
        obtain ⟨hx, hxs⟩ := List.nodup_cons.mp hnodup
        have hkeep : xs.filter (fun y => !y == x) = xs := by
          rw [List.filter_eq_self]
          intro y hy
          simpa using fun heq : y = x => hx (heq ▸ hy)
        rw [List.eraseDups_cons, hkeep, ih hxs]

theorem eraseDups_prefix_append (xs ys : List α) : xs.eraseDups <+: (xs ++ ys).eraseDups := by
  rw [List.eraseDups_append]
  exact List.prefix_append _ _

theorem length_eraseDups_eq_iff : xs.eraseDups.length = xs.length ↔ xs.Nodup := by
  rw [← eraseDups_eq_self_iff]
  exact ⟨(eraseDups_sublist xs).eq_of_length, congrArg List.length⟩

theorem eraseDups_append_congr (h : xs.eraseDups = ys.eraseDups) :
    (xs ++ zs).eraseDups = (ys ++ zs).eraseDups := by
  have hmem : ∀ z, z ∈ xs ↔ z ∈ ys := fun z => by
    rw [← List.mem_eraseDups, h, List.mem_eraseDups]
  rw [List.eraseDups_append, List.eraseDups_append, h]
  congr 2
  exact List.filter_congr fun z _ => by simp [hmem]

theorem eraseDups_concat (xs : List α) (x : α) :
    (xs ++ [x]).eraseDups = if x ∈ xs then xs.eraseDups else xs.eraseDups ++ [x] := by
  rw [List.eraseDups_append]
  split
  · next hx => simp [List.removeAll, hx]
  · next hx => simp [List.removeAll, hx, List.eraseDups_cons]

theorem eraseDups_filterMap_eraseDups (g : α → Option β) (xs : List α) :
    (xs.eraseDups.filterMap g).eraseDups = (xs.filterMap g).eraseDups := by
  induction xs using List.reverseRecOn with
  | nil => rfl
  | append_singleton xs x ih =>
      rw [eraseDups_concat, List.filterMap_append]
      by_cases hx : x ∈ xs
      · rw [if_pos hx, ih]
        cases hg : g x with
        | none => simp [hg]
        | some y =>
            have hy : y ∈ xs.filterMap g := List.mem_filterMap.mpr ⟨x, hx, hg⟩
            simp [hg, eraseDups_concat, List.mem_filterMap.mp hy]
      · rw [if_neg hx, List.filterMap_append]
        exact eraseDups_append_congr ih

theorem eraseDups_filterMap_congr (h : xs.eraseDups = ys.eraseDups) :
    (xs.filterMap g).eraseDups = (ys.filterMap g).eraseDups := by
  rw [← eraseDups_filterMap_eraseDups g xs, h, eraseDups_filterMap_eraseDups]

end Refutation
