import Refutation.ProofTree.Walk
import Refutation.Proofs.TreeWellFormed

/-! # What a walk finds

While a walk is going on, all that is visited or on the stack can be reached, and the successors of
what is visited are visited or on the stack (`Walk.Sound`).  When the stack is empty, exactly what
can be reached has been visited.  A walk that is looking for a vertex stops as soon as the vertex
comes up, so that it is not among those visited; if the stack gets empty the vertex cannot be
reached (`Walk.Sound.tells`).

A walk ends, since a step that puts vertices on the stack has visited one for the first time, and
any other step makes the stack shorter (`Walk.exists_run?`).

So a call that edits a tree in place comes to what the definitions without a stack say
(`ProofTree.comesTo_addInPlace`, `ProofTree.WellFormed.comesTo_dropUnusedInPlace`). -/

namespace Refutation

/-! ### Computations with a limit -/

namespace ComesTo

variable {α β : Type} {f : Nat → Option α} {r r' : α}

theorem unique (h : ComesTo f r) (h' : ComesTo f r') : r = r' := by
  obtain ⟨steps, hsteps⟩ := h
  obtain ⟨steps', hsteps'⟩ := h'
  have heq := hsteps (max steps steps') (by omega)
  rw [hsteps' (max steps steps') (by omega)] at heq
  exact (Option.some.inj heq).symm

theorem const (r : α) : ComesTo (fun _ => some r) r := ⟨0, fun _ _ => rfl⟩

theorem map (h : ComesTo f r) (g : α → β) : ComesTo (fun limit => (f limit).map g) (g r) := by
  obtain ⟨steps, hsteps⟩ := h
  exact ⟨steps, fun limit hlimit => by simp only [hsteps limit hlimit, Option.map_some]⟩

theorem bind {g : Nat → α → Option β} {s : β} (h : ComesTo f r)
    (h' : ComesTo (fun limit => g limit r) s) :
    ComesTo (fun limit => (f limit).bind (g limit)) s := by
  obtain ⟨steps, hsteps⟩ := h
  obtain ⟨steps', hsteps'⟩ := h'
  refine ⟨max steps steps', fun limit hlimit => ?_⟩
  simp only [hsteps limit (by omega), Option.bind_some]
  exact hsteps' limit (by omega)

end ComesTo

namespace Walk

variable {next : Nat → List Nat} {sought? : Option Nat} {i x y : Nat} {rest vertices : List Nat}
  {limit : Nat} {w : Walk} {e : Ending}

/-! ### Steps -/

theorem visit_of_mem (h : x ∈ w.seen) : w.visit next x rest = { w with todo := rest } := if_pos h

theorem visit_of_not_mem (h : x ∉ w.seen) :
    w.visit next x rest = ⟨(next x).reverse ++ rest, w.seen.insert x⟩ := if_neg h

theorem run?_of_nil (h : w.todo = []) :
    run? next sought? (limit + 1) w = some (.exhausted w.seen) := by
  rw [run?, h]

theorem run?_of_sought (h : w.todo = x :: rest) (hx : sought? = some x) :
    run? next sought? (limit + 1) w = some .found := by
  rw [run?, h]
  exact if_pos hx

theorem run?_of_not_sought (h : w.todo = x :: rest) (hx : sought? ≠ some x) :
    run? next sought? (limit + 1) w = run? next sought? limit (w.visit next x rest) := by
  rw [run?, h]
  exact if_neg hx

/-! ### A walk ends -/

theorem run?_mono {limit' : Nat} (h : run? next sought? limit w = some e) (hle : limit ≤ limit') :
    run? next sought? limit' w = some e := by
  induction limit generalizing w limit' with
  | zero => cases h
  | succ limit ih =>
      obtain ⟨more, rfl⟩ := Nat.exists_eq_add_of_le' hle
      cases htodo : w.todo with
      | nil =>
          rw [run?_of_nil htodo] at h
          rw [← Nat.add_assoc, run?_of_nil htodo, h]
      | cons x rest =>
          rw [← Nat.add_assoc]
          by_cases hx : sought? = some x
          · rw [run?_of_sought htodo hx] at h
            rw [run?_of_sought htodo hx, h]
          · rw [run?_of_not_sought htodo hx] at h
            rw [run?_of_not_sought htodo hx]
            exact ih h (by omega)

theorem covers_visit (hcovers : Covers next w.todo w.seen vertices) (htodo : w.todo = x :: rest)
    (hx : x ∉ w.seen) : ∃ fewer : List Nat, fewer.length < vertices.length ∧
      Covers next (w.visit next x rest).todo (w.visit next x rest).seen fewer := by
  have htop : w.todo.dropWhile w.seen.contains = x :: rest := by simp [htodo, hx]
  obtain ⟨fewer, hlength, hfewer⟩ := hcovers.step htop
  refine ⟨fewer, hlength, ?_⟩
  rw [visit_of_not_mem hx]
  intro v hv
  refine hfewer v ?_
  simpa using hv

/-- **A walk ends** if finitely many vertices can be reached. -/
theorem exists_run? (hcovers : Covers next w.todo w.seen vertices) :
    ∃ limit e, run? next sought? limit w = some e := by
  -- Either a vertex is visited for the first time, or the stack gets shorter.
  induction hn : vertices.length using Nat.strongRecOn generalizing w vertices with
  | ind n ih =>
      obtain ⟨todo, seen⟩ := w
      induction todo with
      | nil => exact ⟨1, _, run?_of_nil rfl⟩
      | cons x rest ihrest =>
          by_cases hsought : sought? = some x
          · exact ⟨1, _, run?_of_sought rfl hsought⟩
          · obtain ⟨limit, e, hrun⟩ :
                ∃ limit e,
                  run? next sought? limit (visit next ⟨x :: rest, seen⟩ x rest) = some e := by
              by_cases hx : x ∈ seen
              · rw [visit_of_mem hx]
                exact ihrest fun v hv => hcovers v (List.mem_cons_of_mem x hv)
              · obtain ⟨fewer, hlength, hfewer⟩ := covers_visit hcovers rfl hx
                exact ih fewer.length (by omega) hfewer rfl
            exact ⟨limit + 1, e, by rw [run?_of_not_sought rfl hsought, hrun]⟩

/-! ### What is visited -/

/-- What is known while a walk from `i` is going on. -/
structure Sound (next : Nat → List Nat) (sought? : Option Nat) (i : Nat) (w : Walk) : Prop where
  reached : ∀ x, x ∈ w.todo ∨ x ∈ w.seen → Reaches next i x
  /-- Nothing that is met is forgotten. -/
  closed : ∀ x ∈ w.seen, ∀ y ∈ next x, y ∈ w.todo ∨ y ∈ w.seen
  covered : i ∈ w.todo ∨ i ∈ w.seen
  unsought : ∀ x ∈ w.seen, sought? ≠ some x

namespace Sound

theorem start (next : Nat → List Nat) (sought? : Option Nat) (i : Nat) :
    Sound next sought? i (.start i) where
  reached x hx := by
    have heq : x = i := by simpa [Walk.start] using hx
    exact heq ▸ .refl x
  closed x hx := absurd hx Std.TreeSet.not_mem_emptyc
  covered := .inl List.mem_cons_self
  unsought x hx := absurd hx Std.TreeSet.not_mem_emptyc

theorem mem_visit (htodo : w.todo = x :: rest) (hy : y ∈ w.todo ∨ y ∈ w.seen) :
    y ∈ (w.visit next x rest).todo ∨ y ∈ (w.visit next x rest).seen := by
  rw [htodo, List.mem_cons] at hy
  by_cases hx : x ∈ w.seen
  · rw [visit_of_mem hx]
    rcases hy with (rfl | hy) | hy
    · exact .inr hx
    · exact .inl hy
    · exact .inr hy
  · rw [visit_of_not_mem hx]
    simp only [List.mem_append, Std.TreeSet.mem_insert, Nat.compare_eq_eq]
    rcases hy with (rfl | hy) | hy
    · exact .inr (.inl rfl)
    · exact .inl (.inr hy)
    · exact .inr (.inr hy)

/-- **A step keeps what is known.** -/
theorem visit (h : Sound next sought? i w) (htodo : w.todo = x :: rest)
    (hsought : sought? ≠ some x) :
    Sound next sought? i (w.visit next x rest) := by
  have htop : Reaches next i x := h.reached x (.inl (htodo ▸ List.mem_cons_self))
  have hrest : ∀ y ∈ rest, Reaches next i y := fun y hy =>
    h.reached y (.inl (htodo ▸ List.mem_cons_of_mem x hy))
  by_cases hx : x ∈ w.seen
  · have heq : w.visit next x rest = { w with todo := rest } := visit_of_mem hx
    constructor
    case reached =>
      rw [heq]
      rintro y (hy | hy)
      · exact hrest y hy
      · exact h.reached y (.inr hy)
    case closed =>
      intro y hy z hz
      rw [heq] at hy
      exact mem_visit htodo (h.closed y hy z hz)
    case covered => exact mem_visit htodo h.covered
    case unsought =>
      rw [heq]
      exact h.unsought
  · have heq : w.visit next x rest = ⟨(next x).reverse ++ rest, w.seen.insert x⟩ :=
      visit_of_not_mem hx
    have hseen : ∀ y, y ∈ (w.visit next x rest).seen ↔ x = y ∨ y ∈ w.seen := fun y => by
      rw [heq, Std.TreeSet.mem_insert, Nat.compare_eq_eq]
    constructor
    case reached =>
      rintro y (hy | hy)
      · rw [heq, List.mem_append, List.mem_reverse] at hy
        exact hy.elim (fun hy => .tail htop hy) (hrest y)
      · rcases (hseen y).mp hy with rfl | hy
        · exact htop
        · exact h.reached y (.inr hy)
    case closed =>
      intro y hy z hz
      rcases (hseen y).mp hy with rfl | hy
      · rw [heq]
        exact .inl (List.mem_append_left _ (List.mem_reverse.mpr hz))
      · exact mem_visit htodo (h.closed y hy z hz)
    case covered => exact mem_visit htodo h.covered
    case unsought =>
      intro y hy
      rcases (hseen y).mp hy with rfl | hy
      · exact hsought
      · exact h.unsought y hy

theorem mem_seen_iff (h : Sound next sought? i w) (htodo : w.todo = []) :
    x ∈ w.seen ↔ Reaches next i x := by
  have hleft : ∀ {y}, y ∈ w.todo ∨ y ∈ w.seen → y ∈ w.seen := fun hy =>
    hy.resolve_left (by simp [htodo])
  refine ⟨fun hx => h.reached x (.inr hx), fun hx => ?_⟩
  exact hx.mem_of_reaches (fun y hy z hz => hleft (h.closed y hy z hz)) (hleft h.covered)

end Sound

/-- What can be told about a graph when a walk from `i` has ended. -/
def Ending.Tells (next : Nat → List Nat) (sought? : Option Nat) (i : Nat) : Ending → Prop
  | .found => ∃ x, sought? = some x ∧ Reaches next i x
  | .exhausted seen =>
      (∀ x, x ∈ seen ↔ Reaches next i x) ∧ ∀ x, sought? = some x → ¬Reaches next i x

/-- **What a walk tells is true**, by induction on its steps. -/
theorem Sound.tells (h : Sound next sought? i w) (hrun : run? next sought? limit w = some e) :
    e.Tells next sought? i := by
  induction limit generalizing w with
  | zero => cases hrun
  | succ limit ih =>
      cases htodo : w.todo with
      | nil =>
          rw [run?_of_nil htodo] at hrun
          cases hrun
          have hseen : ∀ x, x ∈ w.seen ↔ Reaches next i x := fun x => h.mem_seen_iff htodo
          exact ⟨hseen, fun x hx hreach => h.unsought x ((hseen x).mpr hreach) hx⟩
      | cons x rest =>
          by_cases hx : sought? = some x
          · rw [run?_of_sought htodo hx] at hrun
            cases hrun
            exact ⟨x, hx, h.reached x (.inl (htodo ▸ List.mem_cons_self))⟩
          · rw [run?_of_not_sought htodo hx] at hrun
            exact ih (h.visit htodo hx) hrun

/-- **A walk comes to an end and tells what can be reached.** -/
theorem exists_comesTo (sought? : Option Nat) (hvertices : ∀ y, Reaches next i y → y ∈ vertices) :
    ∃ e : Ending, ComesTo (fun limit => run? next sought? limit (start i)) e ∧
      e.Tells next sought? i := by
  have hcovers : Covers next (start i).todo (start i).seen vertices := by
    intro x hx y hreach _
    rw [List.mem_singleton.mp hx] at hreach
    exact hvertices y hreach
  obtain ⟨limit, e, hrun⟩ : ∃ limit e, run? next sought? limit (start i) = some e :=
    exists_run? hcovers
  exact ⟨e, ⟨limit, fun _ hle => run?_mono hrun hle⟩, (Sound.start next sought? i).tells hrun⟩

end Walk

namespace ProofTree

variable {p : ProofTree} {parent child : Nat}

/-! ### Calls in place -/

theorem exists_comesTo_walk (hchild : p.graph.Complete child) (sought? : Option Nat) :
    ∃ e : Walk.Ending,
      ComesTo (fun limit => Walk.run? p.graph.antecedents sought? limit (.start child)) e ∧
        e.Tells p.graph.antecedents sought? child :=
  Walk.exists_comesTo sought? fun y hreach => List.mem_range.mpr (hchild.lt_bound y hreach)

/-- **Adding an antecedent in place** comes to the tree and answer that `addAntecedent` gives. -/
theorem comesTo_addInPlace (hchild : p.contains child = true → p.graph.Complete child) :
    ComesTo (fun limit => p.addInPlace? limit parent child)
      ⟨p.afterAdding parent child, (p.addAntecedent parent child).map fun _ => ()⟩ := by
  unfold addInPlace? afterAdding addAntecedent
  by_cases hthere : p.contains parent = true ∧ p.contains child = true
  · have hcomplete := hchild hthere.2
    obtain ⟨e, hwalk, htells⟩ := exists_comesTo_walk hcomplete (some parent)
    simp only [if_pos hthere]
    cases e with
    | found =>
        obtain ⟨x, hx, hreach⟩ := htells
        cases hx
        rw [if_pos ((uses_iff_of_complete hcomplete).mpr hreach)]
        exact hwalk.map _
    | exhausted seen =>
        have hfree : ¬p.uses child parent = true := fun huses =>
          htells.2 parent rfl ((uses_iff_of_complete hcomplete).mp huses)
        rw [if_neg hfree]
        exact hwalk.map _
  · simp only [if_neg hthere]
    exact .const _

theorem retain_congr {used used' : Std.TreeSet Nat} (h : ∀ key, key ∈ used ↔ key ∈ used') :
    p.retain used = p.retain used' := by
  simp only [retain, h]

theorem dropUnused_eq_retain (p : ProofTree) : p.dropUnused = p.retain (.ofList p.derivation) := rfl

namespace WellFormed

theorem comesTo_dropUnusedInPlace (h : p.WellFormed) :
    ComesTo (fun limit => p.dropUnusedInPlace? limit) p.dropUnused := by
  obtain ⟨e, hwalk, htells⟩ := exists_comesTo_walk (h.complete h.root_mem) none
  unfold dropUnusedInPlace?
  cases e with
  | found =>
      obtain ⟨x, hx, -⟩ := htells
      cases hx
  | exhausted seen =>
      have hsame : ∀ key, key ∈ Std.TreeSet.ofList p.derivation ↔ key ∈ seen := by
        intro key
        rw [Std.TreeSet.mem_ofList, List.contains_iff_mem, h.mem_derivation_root]
        exact (htells.1 key).symm
      rw [dropUnused_eq_retain, retain_congr hsame]
      exact hwalk.bind (.const _)

theorem comesTo_forgetInPlace (h : p.WellFormed) (key : Nat) :
    ComesTo (fun limit => p.forgetInPlace? limit key) (p.forgetAntecedents key) :=
  (h.clearAntecedents key).comesTo_dropUnusedInPlace

end WellFormed
end ProofTree
end Refutation
