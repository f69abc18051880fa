import Mathlib.Data.List.Nodup
import Std.Data.TreeMap

/-! # Numbering the members of a list

Clauses are renumbered by looking them up in the list of those that remain: the list is paired with
consecutive numbers, and the pairs become the entries of a map.  In a list without repeats the
number of a member is its position, counted from the first number. -/

namespace Refutation

variable {xs : List Nat} {start x k : Nat}

theorem getElem?_ofList_zipIdx (h : xs.Nodup) :
    (Std.TreeMap.ofList (xs.zipIdx start))[x]? = some k ↔ (x, k) ∈ xs.zipIdx start := by
  have hkeys : (xs.zipIdx start).Pairwise fun a b => ¬compare a.1 b.1 = .eq := by
    have hfst : ((xs.zipIdx start).map Prod.fst).Pairwise (· ≠ ·) := by
      rwa [List.zipIdx_map_fst]
    rw [List.pairwise_map] at hfst
    exact hfst.imp fun hne heq => hne (Nat.compare_eq_eq.mp heq)
  have hfound : ∀ {x k : Nat}, (x, k) ∈ xs.zipIdx start →
      (Std.TreeMap.ofList (xs.zipIdx start))[x]? = some k := fun hmem =>
    Std.TreeMap.getElem?_ofList_of_mem Std.ReflOrd.compare_self hkeys hmem
  refine ⟨fun hlook => ?_, hfound⟩
  -- a key that is found has been listed, and the value listed is the one found
  have hmem : x ∈ Std.TreeMap.ofList (xs.zipIdx start) := by
    rw [← Std.TreeMap.isSome_getElem?_iff_mem, hlook]
    rfl
  rw [Std.TreeMap.mem_ofList, List.contains_iff_mem] at hmem
  obtain ⟨⟨x', k'⟩, hpair, rfl⟩ := List.mem_map.mp hmem
  rw [hfound hpair] at hlook
  rwa [← Option.some.inj hlook]

theorem mem_zipIdx_iff_idxOf (h : xs.Nodup) :
    (x, k) ∈ xs.zipIdx start ↔ x ∈ xs ∧ k = start + xs.idxOf x := by
  rw [List.mem_zipIdx_iff_le_and_getElem?_sub]
  constructor
  · intro hpair
    obtain ⟨hle, hget⟩ := hpair
    simp only at hle hget
    obtain ⟨hlt, rfl⟩ := List.getElem?_eq_some_iff.mp hget
    have hidx := h.idxOf_getElem (k - start) hlt
    exact ⟨List.getElem_mem hlt, by rw [hidx]; omega⟩
  · intro hmember
    obtain ⟨hmem, rfl⟩ := hmember
    have hlt := List.idxOf_lt_length_iff.mpr hmem
    refine ⟨by omega, ?_⟩
    rw [Nat.add_sub_cancel_left, List.getElem?_eq_getElem hlt, List.getElem_idxOf hlt]

theorem getElem?_ofList_zipIdx_of_mem (h : xs.Nodup) (hx : x ∈ xs) :
    (Std.TreeMap.ofList (xs.zipIdx start))[x]? = some (start + xs.idxOf x) :=
  (getElem?_ofList_zipIdx h).mpr ((mem_zipIdx_iff_idxOf h).mpr ⟨hx, rfl⟩)

theorem mem_ofList_zipIdx : x ∈ Std.TreeMap.ofList (xs.zipIdx start) ↔ x ∈ xs := by
  rw [Std.TreeMap.mem_ofList, List.zipIdx_map_fst, List.contains_iff_mem]

theorem getElem?_ofList_zipIdx_concat {y : Nat} (h : (xs ++ [y]).Nodup) :
    (Std.TreeMap.ofList ((xs ++ [y]).zipIdx start))[x]? =
      if x = y then some (start + xs.length)
      else (Std.TreeMap.ofList (xs.zipIdx start))[x]? := by
  have hxs : xs.Nodup := (List.nodup_append.mp h).1
  have hy : y ∉ xs := fun hmem => (List.disjoint_of_nodup_append h) hmem List.mem_cons_self
  split
  · next heq =>
    subst heq
    rw [getElem?_ofList_zipIdx_of_mem h (List.mem_append_right _ List.mem_cons_self),
      List.idxOf_append_of_notMem hy, List.idxOf_cons_self, Nat.add_zero]
  · next hne =>
    by_cases hx : x ∈ xs
    · rw [getElem?_ofList_zipIdx_of_mem hxs hx,
        getElem?_ofList_zipIdx_of_mem h (List.mem_append_left _ hx),
        List.idxOf_append_of_mem hx]
    · rw [Std.TreeMap.getElem?_eq_none (mt mem_ofList_zipIdx.mp hx),
        Std.TreeMap.getElem?_eq_none]
      rw [mem_ofList_zipIdx]
      simp [hx, hne]

theorem getElem?_ofList_zipIdx_map {f : Nat → Nat} (hf : Function.Injective f) (h : xs.Nodup) :
    (Std.TreeMap.ofList ((xs.map f).zipIdx start))[f x]? =
      (Std.TreeMap.ofList (xs.zipIdx start))[x]? := by
  apply Option.ext
  intro k
  rw [getElem?_ofList_zipIdx (h.map hf), getElem?_ofList_zipIdx h,
    List.mem_zipIdx_iff_le_and_getElem?_sub, List.mem_zipIdx_iff_le_and_getElem?_sub,
    List.getElem?_map]
  exact and_congr_right fun _ => (Option.map_injective hf).eq_iff (b := some x)

theorem size_eq_length {β : Type} {m : Std.TreeMap Nat β} (h : xs.Nodup)
    (hmem : ∀ x, x ∈ m ↔ x ∈ xs) : m.size = xs.length := by
  rw [← Std.TreeMap.length_keys]
  refine ((List.perm_ext_iff_of_nodup Std.TreeMap.nodup_keys h).mpr fun x => ?_).length_eq
  rw [Std.TreeMap.mem_keys, hmem]

end Refutation
