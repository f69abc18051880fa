import Std.Data.TreeSet

/-! # Exploring a directed graph

A graph is given by the list of successors of each vertex.  `explore` lists the vertices that can
be reached from a list of vertices still to be visited, each once and in the order of a
depth-first search: a vertex is listed before its successors, and the first successor is explored
before the others.

The search carries the number of vertices it may still list, so that it ends on any graph, also
one with cycles or infinitely many vertices.  No vertex is listed twice (`nodup_explore`), and
where the number allows for every vertex that can be reached, the search lists exactly those
(`mem_explore_iff`).  Searches can go on from one another, each passing over what was seen before
(`mem_foldl_search_iff`). -/

namespace Refutation

section

variable {α : Type} [Ord α]

/-- The vertices reached from those `todo` without passing through a vertex already `seen`, at
most `limit` of them, in the order of discovery. -/
def explore (next : α → List α) : (limit : Nat) → (todo : List α) → Std.TreeSet α → List α
  | 0, _, _ => []
  | limit + 1, todo, seen =>
      match todo.dropWhile seen.contains with
      | [] => []
      | x :: rest => x :: explore next limit (next x ++ rest) (seen.insert x)

end

/-- `Reaches next x y`: following successors leads from `x` to `y` in zero or more steps. -/
inductive Reaches {α : Type} (next : α → List α) : α → α → Prop where
  | refl (x : α) : Reaches next x x
  | tail {x y z : α} : Reaches next x y → z ∈ next y → Reaches next x z

namespace Reaches

variable {α : Type} {next : α → List α} {x y z : α}

theorem single (h : y ∈ next x) : Reaches next x y := .tail (.refl x) h

theorem trans (hxy : Reaches next x y) (hyz : Reaches next y z) : Reaches next x z := by
  induction hyz with
  | refl => exact hxy
  | tail _ hz ih => exact .tail ih hz

theorem mono {next' : α → List α} (h : Reaches next x y)
    (hsub : ∀ x, ∀ y ∈ next x, y ∈ next' x) : Reaches next' x y := by
  induction h with
  | refl => exact .refl _
  | tail _ hz ih => exact .tail ih (hsub _ _ hz)

theorem congr {next' : α → List α} (h : ∀ y, Reaches next x y → next' y = next y) :
    Reaches next' x z ↔ Reaches next x z := by
  constructor
  · intro hreach
    induction hreach with
    | refl => exact .refl _
    | tail _ hz ih => exact .tail ih (h _ ih ▸ hz)
  · intro hreach
    induction hreach with
    | refl => exact .refl _
    | tail hxy hz ih => exact .tail ih (h _ hxy ▸ hz)

theorem eq_or_exists_next (h : Reaches next x y) : y = x ∨ ∃ z ∈ next x, Reaches next z y := by
  induction h with
  | refl => exact .inl rfl
  | @tail y z _ hz ih =>
      rcases ih with rfl | ⟨w, hw, hreach⟩
      · exact .inr ⟨z, hz, .refl z⟩
      · exact .inr ⟨w, hw, .tail hreach hz⟩

theorem mem_of_reaches {P : α → Prop} (h : Reaches next x y)
    (hclosed : ∀ x, P x → ∀ y ∈ next x, P y) (hx : P x) : P y := by
  induction h with
  | refl => exact hx
  | tail _ hz ih => exact hclosed _ ih _ hz

theorem mem_of_reached {P : α → Prop} (h : Reaches next x y)
    (hclosed : ∀ x, ∀ y ∈ next x, P y → P x) (hy : P y) : P x := by
  induction h with
  | refl => exact hy
  | tail _ hz ih => exact ih (hclosed _ _ hz hy)

theorem map {β : Type} {next' : β → List β} {f : α → β}
    (h : ∀ x, ∀ y ∈ next x, f y ∈ next' (f x)) (hreach : Reaches next x y) :
    Reaches next' (f x) (f y) := by
  induction hreach with
  | refl => exact .refl _
  | tail _ hz ih => exact .tail ih (h _ _ hz)

theorem flip {next' : α → List α} (h : ∀ x, ∀ y ∈ next x, x ∈ next' y)
    (hreach : Reaches next x y) : Reaches next' y x := by
  induction hreach with
  | refl => exact .refl _
  | tail _ hz ih => exact (single (h _ _ hz)).trans ih

end Reaches

/-! ### The vertices listed -/

section

variable {α : Type} [Ord α] {next : α → List α} {limit : Nat} {todo : List α}
  {seen : Std.TreeSet α}

theorem reaches_of_mem_explore {y : α} (h : y ∈ explore next limit todo seen) :
    ∃ x ∈ todo, Reaches next x y := by
  induction limit generalizing todo seen with
  | zero => simp [explore] at h
  | succ limit ih =>
      unfold explore at h
      split at h
      · simp at h
      · next x rest heq =>
        have hsub : ∀ v ∈ x :: rest, v ∈ todo := fun v hv =>
          (List.dropWhile_sublist _).mem (heq ▸ hv)
        rcases List.mem_cons.mp h with rfl | h
        · exact ⟨_, hsub _ List.mem_cons_self, .refl _⟩
        · obtain ⟨v, hv, hreach⟩ := ih h
          rcases List.mem_append.mp hv with hv | hv
          · exact ⟨x, hsub _ List.mem_cons_self, (Reaches.single hv).trans hreach⟩
          · exact ⟨v, hsub _ (List.mem_cons_of_mem _ hv), hreach⟩

theorem mem_seen_or_mem_dropWhile (seen : Std.TreeSet α) {v : α} (hv : v ∈ todo) :
    v ∈ seen ∨ v ∈ todo.dropWhile seen.contains := by
  induction todo with
  | nil => simp at hv
  | cons x rest ih =>
      by_cases hx : x ∈ seen
      · simp only [List.dropWhile_cons, Std.TreeSet.contains_iff_mem, hx, if_true]
        rcases List.mem_cons.mp hv with rfl | hv
        · exact .inl hx
        · exact ih hv
      · simp only [List.dropWhile_cons, Std.TreeSet.contains_iff_mem, hx, if_false]
        exact .inr hv

theorem not_mem_seen_of_dropWhile_eq {x : α} {rest : List α}
    (h : todo.dropWhile seen.contains = x :: rest) : x ∉ seen := by
  intro hx
  have := List.head?_dropWhile_not seen.contains todo
  simp only [h, List.head?_cons, Std.TreeSet.contains_iff_mem.mpr hx, Bool.true_eq_false] at this

variable [Std.TransOrd α]

theorem not_mem_seen_of_mem_explore {y : α} (h : y ∈ explore next limit todo seen) :
    y ∉ seen := by
  induction limit generalizing todo seen with
  | zero => simp [explore] at h
  | succ limit ih =>
      unfold explore at h
      split at h
      · simp at h
      · next x rest heq =>
        rcases List.mem_cons.mp h with rfl | h
        · exact not_mem_seen_of_dropWhile_eq heq
        · exact fun hy => ih h (Std.TreeSet.mem_insert.mpr (.inr hy))

theorem nodup_explore : (explore next limit todo seen).Nodup := by
  induction limit generalizing todo seen with
  | zero => exact List.nodup_nil
  | succ limit ih =>
      unfold explore
      split
      · exact List.nodup_nil
      · refine List.nodup_cons.mpr ⟨fun h => ?_, ih⟩
        exact not_mem_seen_of_mem_explore h
          (Std.TreeSet.mem_insert.mpr (.inl Std.ReflOrd.compare_self))

variable [Std.LawfulEqOrd α]

/-- The unseen vertices that can be reached from those to be visited are among `vertices`. -/
def Covers (next : α → List α) (todo : List α) (seen : Std.TreeSet α) (vertices : List α) : Prop :=
  ∀ x ∈ todo, ∀ y, Reaches next x y → y ∉ seen → y ∈ vertices

theorem Covers.step {x : α} {rest vertices : List α} (h : Covers next todo seen vertices)
    (heq : todo.dropWhile seen.contains = x :: rest) :
    ∃ fewer : List α, fewer.length < vertices.length ∧
      Covers next (next x ++ rest) (seen.insert x) fewer := by
  have hnew := not_mem_seen_of_dropWhile_eq heq
  have hsub : ∀ v ∈ x :: rest, v ∈ todo := fun v hv =>
    (List.dropWhile_sublist _).mem (heq ▸ hv)
  obtain ⟨front, back, rfl⟩ :=
    List.append_of_mem (h x (hsub x List.mem_cons_self) x (.refl x) hnew)
  refine ⟨front ++ back, by simp, ?_⟩
  intro v hv y hreach hy
  rw [Std.TreeSet.mem_insert, Std.LawfulEqOrd.compare_eq_iff_eq, not_or] at hy
  have hmem : y ∈ front ++ x :: back := by
    rcases List.mem_append.mp hv with hv | hv
    · exact h x (hsub x List.mem_cons_self) y ((Reaches.single hv).trans hreach) hy.2
    · exact h v (hsub v (List.mem_cons_of_mem _ hv)) y hreach hy.2
  simp only [List.mem_append, List.mem_cons] at hmem ⊢
  rcases hmem with hfront | rfl | hback
  · exact .inl hfront
  · exact absurd rfl hy.1
  · exact .inr hback

/-- **A search ends by itself**: a limit that allows for the vertices that can be reached is not
what ends it, for under any larger limit the same is listed. -/
theorem explore_eq_of_le {vertices : List α} {limit' : Nat} (hlimit : vertices.length ≤ limit)
    (hvertices : Covers next todo seen vertices) (hle : limit ≤ limit') :
    explore next limit' todo seen = explore next limit todo seen := by
  induction limit' generalizing limit todo seen vertices with
  | zero => rw [Nat.le_zero.mp hle]
  | succ limit' ih =>
      rw [explore]
      split
      · next heq =>
        cases limit with
        | zero => rfl
        | succ limit => rw [explore, heq]
      · next x rest heq =>
        obtain ⟨fewer, hlength, hcovers⟩ := hvertices.step heq
        cases limit with
        | zero => omega
        | succ limit =>
            rw [explore, heq]
            exact congrArg (x :: ·) (ih (by omega) hcovers (by omega))

/-- If the unseen vertices that can be reached are among `vertices`, and `limit` allows as many,
then the search leaves nothing out: what was to be visited and the successors of what is listed are
listed, or were seen before. -/
theorem explore_closed {vertices : List α} (hlimit : vertices.length ≤ limit)
    (hvertices : Covers next todo seen vertices) :
    (∀ x ∈ todo, x ∈ explore next limit todo seen ∨ x ∈ seen) ∧
      ∀ x ∈ explore next limit todo seen, ∀ y ∈ next x,
        y ∈ explore next limit todo seen ∨ y ∈ seen := by
  induction limit generalizing todo seen vertices with
  | zero =>
      refine ⟨fun x hx => .inr ?_, by simp [explore]⟩
      by_cases hseen : x ∈ seen
      · exact hseen
      · have := hvertices x hx x (.refl x) hseen
        simp [List.length_eq_zero_iff.mp (Nat.le_zero.mp hlimit)] at this
  | succ limit ih =>
      unfold explore
      split
      · next heq =>
        refine ⟨fun x hx => .inr ?_, by simp⟩
        simpa [heq] using mem_seen_or_mem_dropWhile seen hx
      · next x rest heq =>
        obtain ⟨fewer, hlength, hcovers⟩ := hvertices.step heq
        obtain ⟨htodo, hnext⟩ := ih (by omega) hcovers
        have hlift : ∀ y, y ∈ explore next limit (next x ++ rest) (seen.insert x) ∨
            y ∈ seen.insert x → y ∈ x :: explore next limit (next x ++ rest) (seen.insert x) ∨
              y ∈ seen := by
          intro y hy
          rw [Std.TreeSet.mem_insert, Std.LawfulEqOrd.compare_eq_iff_eq] at hy
          rcases hy with h | rfl | h
          · exact .inl (List.mem_cons_of_mem _ h)
          · exact .inl List.mem_cons_self
          · exact .inr h
        refine ⟨fun v hv => ?_, fun v hv y hy => hlift y ?_⟩
        · rcases mem_seen_or_mem_dropWhile seen hv with h | h
          · exact .inr h
          · rcases List.mem_cons.mp (heq ▸ h) with rfl | h
            · exact .inl List.mem_cons_self
            · exact hlift v (htodo v (List.mem_append_right _ h))
        · rcases List.mem_cons.mp hv with rfl | hv
          · exact htodo y (List.mem_append_left _ hy)
          · exact hnext v hv y hy

/-- **The search lists what can be reached**, provided that all of it is among as many vertices as
the search may list. -/
theorem mem_explore_iff {vertices : List α} (hlimit : vertices.length ≤ limit)
    (hvertices : ∀ x ∈ todo, ∀ y, Reaches next x y → y ∈ vertices) {y : α} :
    y ∈ explore next limit todo ∅ ↔ ∃ x ∈ todo, Reaches next x y := by
  have hseen : ∀ x ∈ todo, ∀ y, Reaches next x y → y ∉ (∅ : Std.TreeSet α) → y ∈ vertices :=
    fun x hx y hreach _ => hvertices x hx y hreach
  obtain ⟨htodo, hnext⟩ := explore_closed hlimit hseen
  refine ⟨reaches_of_mem_explore, fun ⟨x, hx, hreach⟩ => ?_⟩
  refine hreach.mem_of_reaches (P := (· ∈ explore next limit todo ∅)) (fun v hv z hz => ?_) ?_
  · exact (hnext v hv z hz).resolve_right Std.TreeSet.not_mem_emptyc
  · exact (htodo x hx).resolve_right Std.TreeSet.not_mem_emptyc

/-- **A search that goes on from what was seen before** lists what can be reached and was not seen,
provided that what was seen is closed under successors. -/
theorem mem_explore_singleton_iff {vertices : List α} {x y : α} (hlimit : vertices.length ≤ limit)
    (hvertices : ∀ y, Reaches next x y → y ∈ vertices)
    (hseen : ∀ y ∈ seen, ∀ z ∈ next y, z ∈ seen) :
    y ∈ explore next limit [x] seen ↔ Reaches next x y ∧ y ∉ seen := by
  have hcovers : Covers next [x] seen vertices := by
    intro v hv y hreach _
    rw [List.mem_singleton.mp hv] at hreach
    exact hvertices y hreach
  obtain ⟨hstart, hnext⟩ := explore_closed hlimit hcovers
  constructor
  · intro hy
    obtain ⟨v, hv, hreach⟩ := reaches_of_mem_explore hy
    exact ⟨List.mem_singleton.mp hv ▸ hreach, not_mem_seen_of_mem_explore hy⟩
  · rintro ⟨hreach, hnew⟩
    refine (hreach.mem_of_reaches
      (P := fun v => v ∈ explore next limit [x] seen ∨ v ∈ seen) ?_ ?_).resolve_right hnew
    · rintro v (hv | hv) z hz
      · exact hnext v hv z hz
      · exact .inr (hseen v hv z hz)
    · exact hstart x List.mem_cons_self

end

/-! ### One search after the other -/

/-- **Searches that go on from one another** see what can be reached from their starts.  Each has
left behind what is closed under successors, as the next relies on. -/
theorem mem_foldl_search_iff {next : Nat → List Nat} {search : Std.TreeSet Nat → Nat → List Nat}
    {starts : List Nat}
    (hsearch : ∀ x ∈ starts, ∀ seen : Std.TreeSet Nat, (∀ y ∈ seen, ∀ z ∈ next y, z ∈ seen) →
      ∀ y, y ∈ search seen x ↔ Reaches next x y ∧ y ∉ seen)
    {seen : Std.TreeSet Nat} (hseen : ∀ y ∈ seen, ∀ z ∈ next y, z ∈ seen) {y : Nat} :
    y ∈ starts.foldl (fun seen x => seen.insertMany (search seen x)) seen ↔
      y ∈ seen ∨ ∃ x ∈ starts, Reaches next x y := by
  induction starts generalizing seen with
  | nil => simp
  | cons x starts ih =>
      rw [List.forall_mem_cons] at hsearch
      have hmem : ∀ y, y ∈ seen.insertMany (search seen x) ↔ y ∈ seen ∨ Reaches next x y := by
        intro y
        rw [Std.TreeSet.mem_insertMany_list, List.contains_iff_mem, hsearch.1 seen hseen]
        by_cases hy : y ∈ seen
        · simp [hy]
        · simp [hy]
      have hclosed : ∀ y ∈ seen.insertMany (search seen x),
          ∀ z ∈ next y, z ∈ seen.insertMany (search seen x) := by
        intro y hy z hz
        rw [hmem] at hy ⊢
        exact hy.imp (fun hy => hseen y hy z hz) (fun hy => .tail hy hz)
      rw [List.foldl_cons, ih hsearch.2 hclosed, hmem, or_assoc]
      simp only [List.mem_cons, exists_eq_or_imp]

end Refutation
