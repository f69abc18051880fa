import Refutation.ProofTree.Copying
import Refutation.Proofs.ExactCopy

/-! # Copies made with a stack

The copying loop keeps the following invariant (`Copying.Sound`).  The clauses that have copies have
been copied one behind the other, each after its antecedents, and the table numbers them in that
order; a clause on the stack whose antecedents have been put on the stack has each of them above it,
unless the antecedent has a copy (`Copying.Ready`).  So no antecedent is left out when a clause is
copied, and once the stack is empty every clause that is used has a copy.

The stack is emptied from the top: whatever is put above a clause is used by it, so that, by
induction along the antecedents, it is taken off again (`Copying.exists_run_todo_eq`). -/

namespace Refutation

open ProofTree

namespace Copying

variable {p : ProofTree} {g : ClauseGraph} {i j : Nat} {s s' : Copying}
  {order known known' js : List Nat} {todo rest : List (Nat × Bool)}

/-! ### One step -/

theorem step?_cases (h : s.step? g = some s') :
    ∃ j expanded rest, s.todo = (j, expanded) :: rest ∧
      (j ∈ s.keys ∧ s' = { s with todo := rest } ∨
      j ∉ s.keys ∧ expanded = true ∧
        s' = ⟨rest, s.keys.insert j s.slots.size, s.slots.push (s.node? g j)⟩ ∨
      j ∉ s.keys ∧ expanded = false ∧
        s' = { s with todo := s.pushed g j ++ (j, true) :: rest }) := by
  unfold step? at h
  split at h
  · cases h
  · next j expanded rest htodo =>
    refine ⟨j, expanded, rest, htodo, ?_⟩
    split at h
    · next hmem => exact .inl ⟨hmem, (Option.some.inj h).symm⟩
    · next hmem =>
      split at h
      · next hexpanded => exact .inr (.inl ⟨hmem, hexpanded, (Option.some.inj h).symm⟩)
      · next hexpanded =>
        exact .inr (.inr ⟨hmem, by simpa using hexpanded, (Option.some.inj h).symm⟩)

theorem exists_step?_of_expanded (h : s.todo = (j, true) :: rest) :
    ∃ s', s.step? g = some s' ∧ s'.todo = rest := by
  unfold step?
  rw [h]
  by_cases hmem : j ∈ s.keys
  · simp [hmem]
  · simp [hmem]

theorem exists_step?_of_not_expanded (h : s.todo = (j, false) :: rest) :
    ∃ s', s.step? g = some s' ∧
      (s'.todo = rest ∨ s'.todo = s.pushed g j ++ (j, true) :: rest) := by
  unfold step?
  rw [h]
  by_cases hmem : j ∈ s.keys
  · simp [hmem]
  · simp [hmem]

/-! ### The stack is emptied -/

theorem run_succ_of_step? (h : s.step? g = some s') (limit : Nat) :
    run g (limit + 1) s = run g limit s' := by
  rw [run, h]

theorem run_of_todo_eq_nil (h : s.todo = []) (limit : Nat) : run g limit s = s := by
  cases limit with
  | zero => rfl
  | succ limit =>
      have hstep : s.step? g = none := by rw [step?, h]
      rw [run, hstep]

theorem run_add (m n : Nat) (s : Copying) : run g (m + n) s = run g n (run g m s) := by
  induction m generalizing s with
  | zero => rw [Nat.zero_add, run]
  | succ m ih =>
      rw [Nat.add_right_comm]
      cases hstep : s.step? g with
      | none => cases n <;> simp only [run, hstep]
      | some s' => rw [run_succ_of_step? hstep, run_succ_of_step? hstep, ih]

/-- Clauses that are taken off the stack one by one are taken off together. -/
theorem exists_run_todo_eq_of_forall
    (heach : ∀ j ∈ js, ∀ s rest, s.todo = (j, false) :: rest → ∃ n, (run g n s).todo = rest)
    (s : Copying) (h : s.todo = js.map (·, false) ++ rest) : ∃ n, (run g n s).todo = rest := by
  induction js generalizing s with
  | nil => exact ⟨0, h⟩
  | cons j js ih =>
      obtain ⟨m, hm⟩ := heach j List.mem_cons_self s _ h
      obtain ⟨n, hn⟩ := ih (fun k hk => heach k (List.mem_cons_of_mem j hk)) (run g m s) hm
      exact ⟨m + n, by rw [run_add, hn]⟩

/-- **A clause is taken off the stack again**, with everything that is put above it. -/
theorem exists_run_todo_eq (hends : WellFounded fun a j => a ∈ g.antecedents j) (j : Nat) :
    ∀ s rest, s.todo = (j, false) :: rest → ∃ n, (run g n s).todo = rest := by
  induction j using hends.induction with
  | h j ih =>
      intro s rest htodo
      obtain ⟨s', hstep, hpassed | hpushed⟩ := exists_step?_of_not_expanded (g := g) htodo
      · exact ⟨1, by rw [run_succ_of_step? hstep, run, hpassed]⟩
      · have hants : ∀ a ∈ ((g.antecedents j).filter (· ∉ s.keys)).reverse, ∀ s rest,
            s.todo = (a, false) :: rest → ∃ n, (run g n s).todo = rest := by
          intro a ha
          exact ih a (List.mem_filter.mp (List.mem_reverse.mp ha)).1
        obtain ⟨n, hn⟩ := exists_run_todo_eq_of_forall hants s' hpushed
        obtain ⟨s'', hcopied, hrest⟩ := exists_step?_of_expanded (g := g) hn
        exact ⟨1 + n + 1, by rw [run_add, run_add, run_succ_of_step? hstep, run,
          run_succ_of_step? hcopied, run, hrest]⟩

/-! ### What is on the stack -/

/-- Whenever a clause on the stack has had its antecedents put on the stack, each of them is
`known`, or stands above it. -/
def Ready (g : ClauseGraph) : (known : List Nat) → List (Nat × Bool) → Prop
  | _, [] => True
  | known, (j, expanded) :: rest =>
      (expanded = true → ∀ a ∈ g.antecedents j, a ∈ known) ∧ Ready g (j :: known) rest

theorem Ready.mono (h : Ready g known todo) (hsub : known ⊆ known') : Ready g known' todo := by
  induction todo generalizing known known' with
  | nil => trivial
  | cons e rest ih =>
      exact ⟨fun hexpanded a ha => hsub (h.1 hexpanded a ha),
        ih h.2 (List.cons_subset_cons e.1 hsub)⟩

/-- Clauses to be expanded may be put on the stack: they count as known to what is below. -/
theorem ready_append_iff :
    Ready g known (js.map (·, false) ++ todo) ↔ Ready g (js.reverse ++ known) todo := by
  induction js generalizing known with
  | nil => rfl
  | cons j js ih =>
      simp only [List.map_cons, List.cons_append, Ready, Bool.false_eq_true, false_imp_iff,
        true_and, ih, List.reverse_cons, List.append_assoc, List.nil_append]

/-! ### The invariant -/

/-- The clauses in `order` have been copied, and what is still to be copied is on the stack. -/
structure Sound (p : ProofTree) (g : ClauseGraph) (i : Nat) (order : List Nat) (s : Copying) :
    Prop where
  nodup : order.Nodup
  slots_eq : s.slots = p.slots ++ (copyInOrder p.nextKey g order).toArray
  keys_eq : ∀ j : Nat, s.keys[j]? = (Std.TreeMap.ofList (order.zipIdx p.nextKey))[j]?
  /-- The antecedents of a clause are copied before it. -/
  closed : ∀ j ∈ order, ∀ a ∈ g.antecedents j, a ∈ order
  used : ∀ j ∈ order, g.Uses i j
  todo_used : ∀ e ∈ s.todo, g.Uses i e.1
  ready : Ready g order s.todo
  /-- The clause the copying began with is copied, or on the stack. -/
  covered : i ∈ order ∨ ∃ expanded, (i, expanded) ∈ s.todo

namespace Sound

theorem start (p : ProofTree) (g : ClauseGraph) (i : Nat) :
    Sound p g i [] (.start p.slots i) where
  nodup := .nil
  slots_eq := by simp [Copying.start, copyInOrder]
  keys_eq _ := rfl
  closed := by simp
  used := by simp
  todo_used e he := by
    rw [List.mem_singleton.mp he]
    exact .refl i
  ready := by simp [Copying.start, Ready]
  covered := .inr ⟨false, List.mem_cons_self⟩

theorem mem_keys_iff (h : Sound p g i order s) : j ∈ s.keys ↔ j ∈ order := by
  rw [← Std.TreeMap.isSome_getElem?_iff_mem, h.keys_eq, Std.TreeMap.isSome_getElem?_iff_mem,
    mem_ofList_zipIdx]

theorem size_slots (h : Sound p g i order s) : s.slots.size = p.nextKey + order.length := by
  simp only [h.slots_eq, Array.size_append, List.size_toArray, copyInOrder, List.length_map,
    nextKey]

theorem uses_top {expanded : Bool} (h : Sound p g i order s)
    (htodo : s.todo = (j, expanded) :: rest) : g.Uses i j :=
  h.todo_used (j, expanded) (htodo ▸ List.mem_cons_self)

theorem ready_top {expanded : Bool} (h : Sound p g i order s)
    (htodo : s.todo = (j, expanded) :: rest) :
    (expanded = true → ∀ a ∈ g.antecedents j, a ∈ order) ∧ Ready g (j :: order) rest := by
  have hready := h.ready
  rwa [htodo] at hready

theorem covered_top {expanded : Bool} (h : Sound p g i order s)
    (htodo : s.todo = (j, expanded) :: rest) :
    i ∈ order ∨ i = j ∨ ∃ expanded, (i, expanded) ∈ rest := by
  refine h.covered.imp_right fun ⟨b, hb⟩ => ?_
  rw [htodo] at hb
  exact (List.mem_cons.mp hb).imp (fun heq => (Prod.mk.inj heq).1) (fun hb => ⟨b, hb⟩)

theorem pass {expanded : Bool} (h : Sound p g i order s) (htodo : s.todo = (j, expanded) :: rest)
    (hj : j ∈ order) : Sound p g i order { s with todo := rest } where
  nodup := h.nodup
  slots_eq := h.slots_eq
  keys_eq := h.keys_eq
  closed := h.closed
  used := h.used
  todo_used e he := h.todo_used e (htodo ▸ List.mem_cons_of_mem _ he)
  ready := (h.ready_top htodo).2.mono (List.cons_subset.mpr ⟨hj, List.Subset.refl order⟩)
  covered := by
    rcases h.covered_top htodo with hi | rfl | hi
    · exact .inl hi
    · exact .inl hj
    · exact .inr hi

theorem copy (h : Sound p g i order s) (htodo : s.todo = (j, true) :: rest) (hj : j ∉ order) :
    Sound p g i (order ++ [j])
      ⟨rest, s.keys.insert j s.slots.size, s.slots.push (s.node? g j)⟩ := by
  have hants : ∀ a ∈ g.antecedents j, a ∈ order := (h.ready_top htodo).1 rfl
  have hnodup : (order ++ [j]).Nodup :=
    h.nodup.append (List.nodup_singleton j) (List.disjoint_singleton.mpr hj)
  have hbefore : ∀ k ∈ order ++ [j], ∀ a ∈ g.antecedents k, a ∈ order := by
    intro k hk
    rcases List.mem_append.mp hk with hk | hk
    · exact h.closed k hk
    · exact List.mem_singleton.mp hk ▸ hants
  have hnode : s.node? g j = (g.clause? j).map
      (Clause.renameAntecedents ((Std.TreeMap.ofList (order.zipIdx p.nextKey))[·]?)) := by
    unfold node?
    rw [funext h.keys_eq]
  constructor
  case nodup => exact hnodup
  case slots_eq =>
    rw [copyInOrder_concat hnodup hbefore, ← hnode, h.slots_eq, ← List.push_toArray,
      Array.append_push]
  case keys_eq =>
    intro k
    rw [getElem?_ofList_zipIdx_concat hnodup, Std.TreeMap.getElem?_insert, h.size_slots,
      h.keys_eq]
    simp only [Nat.compare_eq_eq, eq_comm (a := j)]
  case closed => exact fun k hk a ha => List.mem_append_left _ (hbefore k hk a ha)
  case used =>
    intro k hk
    rcases List.mem_append.mp hk with hk | hk
    · exact h.used k hk
    · exact List.mem_singleton.mp hk ▸ h.uses_top htodo
  case todo_used => exact fun e he => h.todo_used e (htodo ▸ List.mem_cons_of_mem _ he)
  case ready => exact (h.ready_top htodo).2.mono (by simp)
  case covered =>
    rcases h.covered_top htodo with hi | rfl | hi
    · exact .inl (List.mem_append_left _ hi)
    · exact .inl (List.mem_append_right _ List.mem_cons_self)
    · exact .inr hi

theorem expand (h : Sound p g i order s) (htodo : s.todo = (j, false) :: rest) :
    Sound p g i order { s with todo := s.pushed g j ++ (j, true) :: rest } where
  nodup := h.nodup
  slots_eq := h.slots_eq
  keys_eq := h.keys_eq
  closed := h.closed
  used := h.used
  todo_used e he := by
    have hj : g.Uses i j := h.uses_top htodo
    rcases List.mem_append.mp he with he | he
    · obtain ⟨a, ha, rfl⟩ := List.mem_map.mp he
      exact .tail hj (List.mem_filter.mp (List.mem_reverse.mp ha)).1
    · rcases List.mem_cons.mp he with rfl | he
      · exact hj
      · exact h.todo_used e (htodo ▸ List.mem_cons_of_mem _ he)
  ready := by
    rw [pushed, ready_append_iff, List.reverse_reverse]
    refine ⟨fun _ a ha => ?_, (h.ready_top htodo).2.mono ?_⟩
    · by_cases hmem : a ∈ order
      · exact List.mem_append_right _ hmem
      · refine List.mem_append_left _ (List.mem_filter.mpr ⟨ha, ?_⟩)
        simpa [h.mem_keys_iff] using hmem
    · exact List.cons_subset_cons j (List.subset_append_right _ _)
  covered := by
    rcases h.covered_top htodo with hi | rfl | ⟨b, hb⟩
    · exact .inl hi
    · exact .inr ⟨true, List.mem_append_right _ List.mem_cons_self⟩
    · exact .inr ⟨b, List.mem_append_right _ (List.mem_cons_of_mem _ hb)⟩

/-- **A step keeps the invariant.** -/
theorem step (h : Sound p g i order s) (hstep : s.step? g = some s') :
    ∃ order', Sound p g i order' s' := by
  obtain ⟨j, expanded, rest, htodo, ⟨hj, rfl⟩ | ⟨hj, rfl, rfl⟩ | ⟨-, rfl, rfl⟩⟩ :=
    step?_cases hstep
  · exact ⟨order, h.pass htodo (h.mem_keys_iff.mp hj)⟩
  · exact ⟨order ++ [j], h.copy htodo (mt h.mem_keys_iff.mpr hj)⟩
  · exact ⟨order, h.expand htodo⟩

/-- **A run keeps the invariant.** -/
theorem run (h : Sound p g i order s) (limit : Nat) :
    ∃ order', Sound p g i order' (Copying.run g limit s) := by
  induction limit generalizing order s with
  | zero => exact ⟨order, h⟩
  | succ limit ih =>
      unfold Copying.run
      split
      · exact ⟨order, h⟩
      · next s' hstep =>
        obtain ⟨order', h'⟩ := h.step hstep
        exact ih h'

theorem mem_order_iff (h : Sound p g i order s) (htodo : s.todo = []) :
    j ∈ order ↔ g.Uses i j := by
  have hi : i ∈ order := by
    rcases h.covered with hi | ⟨b, hb⟩
    · exact hi
    · simp [htodo] at hb
  exact ⟨h.used j, fun hj => hj.mem_of_reaches h.closed hi⟩

/-- **When the stack is empty the copy is exact.** -/
theorem exactCopy (h : Sound p g i order s) (htodo : s.todo = []) (hg : g.Complete i)
    (root : Nat) : ∃ key, s.keys[i]? = some key ∧ ExactCopy p g i ⟨s.slots, root⟩ key s.keys := by
  have hi : i ∈ s.keys := h.mem_keys_iff.mpr ((h.mem_order_iff htodo).mpr (.refl i))
  rw [Std.TreeMap.mem_iff_isSome_getElem?, Option.isSome_iff_exists] at hi
  obtain ⟨key, hkey⟩ := hi
  exact ⟨key, hkey, exactCopy_of_order hg h.slots_eq h.nodup (fun j => h.mem_order_iff htodo)
    h.keys_eq hkey⟩

end Sound

/-! ### The copy -/

/-- **The loop ends, and what it leaves is an exact copy.** -/
theorem exists_endsWith (hg : g.Complete i)
    (hends : WellFounded fun a j => a ∈ g.antecedents j) (p : ProofTree) :
    ∃ r, EndsWith p.slots g i r ∧
      ∀ root, ExactCopy p g i ⟨r.slots, root⟩ r.key r.keys := by
  obtain ⟨steps, htodo⟩ := exists_run_todo_eq hends i (start p.slots i) [] rfl
  obtain ⟨order, hsound⟩ := (Sound.start p g i).run (g := g) steps
  obtain ⟨key, hkey, -⟩ := hsound.exactCopy htodo hg 0
  refine ⟨(run g steps (start p.slots i)).result g i, ⟨steps, fun limit hlimit => ?_⟩, ?_⟩
  · obtain ⟨extra, rfl⟩ := Nat.exists_eq_add_of_le hlimit
    simp only [result?, run_add, run_of_todo_eq_nil htodo, htodo, List.isEmpty_nil, if_true]
  · intro root
    obtain ⟨key', hkey', hexact⟩ := hsound.exactCopy htodo hg root
    simp only [result, hkey']
    exact hexact

/-- The last antecedent is on top when a clause has been expanded, and so it is copied first. -/
example : (result? 6 #[] Trace.sample.graph 3).map (·.slots) =
    some #[some ⟨[-2, 3], []⟩, some ⟨[1, 2], []⟩, some ⟨[1, 3], [1, 0]⟩] := by
  decide +kernel

end Copying

/-! ### Copies of views -/

namespace ClauseView

variable {v : ClauseView} {p q : ProofTree} {key : Nat} {keys : Std.TreeMap Nat Nat}

/-- The tree `q` is the tree `p` with a copy of the clause and its derivation: the copy is exact, it
has the same derivation as the clause and, if the clause is one of a trace, it is a copy of the
ancestry of its index. -/
structure CopiedTo (v : ClauseView) (p q : ProofTree) (key : Nat) (keys : Std.TreeMap Nat Nat) :
    Prop where
  exact : ProofTree.ExactCopy p v.graph v.name q key keys
  same : v.sameAs (.node q key) = true
  mem_ancestors : ∀ t i, v = .clause t i → ∀ j, j ∈ keys ↔ j ∈ t.ancestors {i}
  size_ancestors : ∀ t i, v = .clause t i → q.size = p.size + (t.ancestors {i}).size

theorem uses_iff_mem_ancestors {t : Trace} {i j : Nat} (ht : t.WellFormed)
    (hi : t.contains i = true) : t.graph.Uses i j ↔ j ∈ t.ancestors {i} :=
  (Trace.mem_ancestors_singleton_iff ht (Trace.mem_indices.mpr (Trace.contains_iff.mp hi))).symm

theorem copiedTo_of_exactCopy (hv : v.Obtained)
    (h : ProofTree.ExactCopy p v.graph v.name q key keys) : v.CopiedTo p q key keys := by
  have hmem : ∀ t i, v = .clause t i → ∀ j, j ∈ keys ↔ j ∈ t.ancestors {i} := by
    rintro t i rfl j
    rw [← uses_iff_mem_ancestors hv.1.wellFormed hv.2]
    exact h.mem_keys j
  refine ⟨h, h.sameDerivation hv.complete, hmem, fun t i heq => ?_⟩
  rw [h.size_eq, ← Std.TreeSet.length_toList]
  congr 1
  refine size_eq_length ?_ fun j => (hmem t i heq j).trans Std.TreeSet.mem_toList.symm
  exact Std.TreeSet.distinct_toList.imp fun hne heq => hne (Nat.compare_eq_eq.mpr heq)

/-- **Copies are exact and keep sharing**, for every clause of a trace and node of a proof tree, and
whatever tree the copies are added to.  The loop that copies with a stack ends, also where it copies
into a tree without nodes, and what it leaves is an exact copy.  So is what an insertion makes of
the tree, and so are detached copies. -/
theorem copiedTo_of_obtained (hv : v.Obtained) (p : ProofTree) :
    (∃ r, Copying.EndsWith p.slots v.graph v.name r ∧
      v.CopiedTo p (r.addedTo p) r.key r.keys) ∧
    (∃ r, Copying.EndsWith #[] v.graph v.name r ∧
      v.CopiedTo ⟨#[], 0⟩ r.tree r.tree.root r.keys) ∧
    v.CopiedTo p (p.insert v.graph v.name) p.nextKey
      (.ofList (ProofTree.copyKeys p.nextKey v.graph v.name)) ∧
    v.CopiedTo ⟨#[], 0⟩ (.ofClause v.graph v.name) (ProofTree.ofClause v.graph v.name).root
      (.ofList (ProofTree.copyKeys 0 v.graph v.name)) ∧
    ∀ t i, v = .clause t i → t.proofTree? i = some (.ofClause v.graph v.name) := by
  obtain ⟨r, hends, hexact⟩ := Copying.exists_endsWith hv.complete hv.wellFounded p
  obtain ⟨r', hends', hexact'⟩ := Copying.exists_endsWith hv.complete hv.wellFounded ⟨#[], 0⟩
  refine ⟨⟨r, hends, copiedTo_of_exactCopy hv (hexact p.root)⟩,
    ⟨r', hends', copiedTo_of_exactCopy hv (hexact' r'.key)⟩,
    copiedTo_of_exactCopy hv (ProofTree.exactCopy_insert hv.complete),
    copiedTo_of_exactCopy hv (ProofTree.exactCopy_ofClause hv.complete), ?_⟩
  rintro t i rfl
  exact if_pos hv.2

/-- The resolvent of the sample trace is copied with its two antecedents, behind the one node of
another tree. -/
theorem copiedTo_of_obtained_sample :
    (ClauseView.clause Trace.sample 3).Obtained ∧
      ∃ r, Copying.EndsWith (ProofTree.leaf [7]).slots Trace.sample.graph 3 r ∧
        (r.addedTo (.leaf [7])).size = 1 + 3 ∧
          (r.addedTo (.leaf [7])).node? 0 = some ⟨[7], []⟩ := by
  have hv : (ClauseView.clause Trace.sample 3).Obtained := ⟨Trace.sample_obtained, by decide⟩
  obtain ⟨⟨r, hends, hcopied⟩, -⟩ := copiedTo_of_obtained hv (.leaf [7])
  have hancestors : (Trace.sample.ancestors {3}).size = 3 := by decide +kernel
  refine ⟨hv, r, hends, ?_, ?_⟩
  · rw [hcopied.size_ancestors Trace.sample 3 rfl, hancestors]
    rfl
  · rw [hcopied.exact.node_of_lt 0 (by decide)]
    rfl

end ClauseView
end Refutation
