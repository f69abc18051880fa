import Refutation.Formula.Splitting
import Refutation.Proofs.FormulaPropagation

/-! # Splitting undoes disjoining

Splitting a formula lists its leaves from left to right (`Formula.LeavesInOrder`): what stands at
the end of the paths through its disjunctions, leaving out false.  That is what the stack of a
splitting comes to (`Splitting.run_start`), and what it says of how the disjunctions are nested is
nothing: two formulas are split into the same list exactly if they can be regrouped into one another
by the laws of association and of the empty disjunction (`Formula.regrouped_iff`).

A clause is a formula that negates literals only (`Formula.IsClause`).  Its literals have normal
forms that are not split any further, so a clause written anew from its literals has the same
literals, and says which they are (`Formula.splitting_undoes_disjoining`). -/

namespace Refutation

/-! ### Splitting with a stack -/

namespace Splitting

/-- What will have been found when the stack is empty. -/
def outcome (s : Splitting) : List Formula := s.found ++ s.todo.flatMap Formula.disjuncts

theorem outcome_step? {s s' : Splitting} (h : s.step? = some s') : s'.outcome = s.outcome := by
  unfold step? at h
  split at h
  · cases h
  · next rest htodo =>
    cases h
    simp [outcome, htodo, Formula.disjuncts]
  · next left right rest htodo =>
    cases h
    simp [outcome, htodo, Formula.disjuncts]
  · next literal rest hfalsum hor htodo =>
    cases h
    have hliteral : literal.isLiteral = true := by
      cases literal with
      | falsum => exact (hfalsum rfl).elim
      | or left right => exact (hor left right rfl).elim
      | atom | count | not => rfl
    simp [outcome, htodo, Formula.disjuncts_of_isLiteral hliteral]

theorem step?_eq_none_iff {s : Splitting} : s.step? = none ↔ s.todo = [] := by
  unfold step?
  split <;> simp_all

/-- **A splitting comes to its outcome**, by induction on its steps. -/
theorem run_eq_outcome (s : Splitting) : s.run = s.outcome := by
  fun_induction run s with
  | case1 s hnone => simp [outcome, step?_eq_none_iff.mp hnone]
  | case2 s s' hstep ih => rw [ih, outcome_step? hstep]

theorem run_start (f : Formula) : (start f).run = f.disjuncts := by
  simp [run_eq_outcome, outcome, start]

end Splitting

namespace Formula

variable {f g : Formula} {fs gs hs : List Formula}

/-! ### Disjoining from the end -/

theorem disjunction_concat (fs : List Formula) (last : Formula) :
    disjunction (fs ++ [last]) = fs.foldr .or last := by
  induction fs with
  | nil => rfl
  | cons f fs ih =>
      cases fs with
      | nil => rfl
      | cons g fs => exact congrArg (Formula.or f) ih

theorem disjoin_eq_disjunction (fs : List Formula) : disjoin fs = disjunction fs := by
  induction fs using List.reverseRecOn with
  | nil => rfl
  | append_singleton fs last ih =>
      rw [disjunction_concat, disjoin, List.reverse_append]
      exact List.foldl_reverse

/-! ### Leaves -/

/-- A side of a disjunction. -/
inductive Side where
  | left
  | right
  deriving DecidableEq, Repr

/-- The left side comes before the right side.  Paths are ordered by where they part. -/
instance : LT Side := ⟨fun side side' => side = .left ∧ side' = .right⟩

/-- What stands at the end of a path that goes from disjunctions to their sides. -/
def at? : Formula → List Side → Option Formula
  | f, [] => some f
  | .or left _, .left :: path => left.at? path
  | .or _ right, .right :: path => right.at? path
  | _, _ :: _ => none

/-- The path ends at a formula that is neither a disjunction nor false. -/
def IsLeaf (f : Formula) (path : List Side) : Prop :=
  ∃ g, f.at? path = some g ∧ g.isLiteral = true

/-- The list names what stands at the leaves of a formula, from left to right. -/
def LeavesInOrder (f : Formula) (gs : List Formula) : Prop :=
  ∃ paths : List (List Side), paths.Pairwise (· < ·) ∧ (∀ path, path ∈ paths ↔ f.IsLeaf path) ∧
    paths.map f.at? = gs.map some

theorem leavesInOrder_falsum : falsum.LeavesInOrder [] := by
  refine ⟨[], List.Pairwise.nil, fun path => ?_, rfl⟩
  cases path <;> simp [IsLeaf, at?, isLiteral]

theorem leavesInOrder_of_isLiteral (h : f.isLiteral = true) : f.LeavesInOrder [f] := by
  refine ⟨[[]], List.pairwise_singleton _ _, fun path => ?_, by simp [at?]⟩
  cases path with
  | nil => simp [IsLeaf, at?, h]
  | cons side path =>
      cases f with
      | falsum | or => cases h
      | atom | count | not => simp [IsLeaf, at?]

theorem isLeaf_or_iff {left right : Formula} {path : List Side} :
    (Formula.or left right).IsLeaf path ↔
      (∃ rest, path = .left :: rest ∧ left.IsLeaf rest) ∨
        ∃ rest, path = .right :: rest ∧ right.IsLeaf rest := by
  cases path with
  | nil => simp [IsLeaf, at?, isLiteral]
  | cons side rest => cases side <;> simp [IsLeaf, at?]

theorem LeavesInOrder.or {left right : Formula} (hleft : left.LeavesInOrder gs)
    (hright : right.LeavesInOrder hs) : (Formula.or left right).LeavesInOrder (gs ++ hs) := by
  obtain ⟨paths, hordered, hmem, hmap⟩ := hleft
  obtain ⟨paths', hordered', hmem', hmap'⟩ := hright
  refine ⟨paths.map (.left :: ·) ++ paths'.map (.right :: ·), ?_, fun path => ?_, ?_⟩
  · have hextend : ∀ (side : Side) {path path' : List Side}, path < path' →
        side :: path < side :: path' := fun side _ _ hlt =>
      List.cons_lt_cons_iff.mpr (.inr ⟨rfl, hlt⟩)
    rw [List.pairwise_append, List.pairwise_map, List.pairwise_map]
    refine ⟨hordered.imp (hextend .left), hordered'.imp (hextend .right), ?_⟩
    intro path hpath path' hpath'
    obtain ⟨rest, -, rfl⟩ := List.mem_map.mp hpath
    obtain ⟨rest', -, rfl⟩ := List.mem_map.mp hpath'
    exact List.cons_lt_cons_iff.mpr (.inl ⟨rfl, rfl⟩)
  · rw [isLeaf_or_iff, List.mem_append, List.mem_map, List.mem_map]
    simp only [hmem, hmem', eq_comm, and_comm]
  · rw [List.map_append, List.map_append, List.map_map, List.map_map, ← hmap, ← hmap']
    rfl

/-- **Splitting a formula lists its leaves from left to right.** -/
theorem leavesInOrder_disjuncts (f : Formula) : f.LeavesInOrder f.disjuncts := by
  induction f with
  | falsum => exact leavesInOrder_falsum
  | or left right ihl ihr => exact ihl.or ihr
  | atom | count | not => exact leavesInOrder_of_isLiteral rfl

/-! ### Other ways to nest the same disjunction -/

/-- Formulas that differ only in how their disjunctions are nested, and in where false occurs among
what they are disjunctions of. -/
inductive Regrouped : Formula → Formula → Prop where
  | refl (f : Formula) : Regrouped f f
  | symm {f g : Formula} (h : Regrouped f g) : Regrouped g f
  | trans {f g k : Formula} (h : Regrouped f g) (h' : Regrouped g k) : Regrouped f k
  | or {f g f' g' : Formula} (h : Regrouped f f') (h' : Regrouped g g') :
      Regrouped (.or f g) (.or f' g')
  | assoc (f g k : Formula) : Regrouped (.or (.or f g) k) (.or f (.or g k))
  | falsum_or (f : Formula) : Regrouped (.or .falsum f) f
  | or_falsum (f : Formula) : Regrouped (.or f .falsum) f

theorem regrouped_disjunction_append (gs hs : List Formula) :
    Regrouped (.or (disjunction gs) (disjunction hs)) (disjunction (gs ++ hs)) := by
  induction gs with
  | nil => exact .falsum_or _
  | cons g gs ih =>
      cases gs with
      | nil =>
          cases hs with
          | nil => exact .or_falsum g
          | cons k hs => exact .refl _
      | cons g' gs => exact (Regrouped.assoc g _ _).trans (.or (.refl g) ih)

theorem regrouped_disjunction_disjuncts (f : Formula) : Regrouped f (disjunction f.disjuncts) := by
  induction f with
  | falsum | atom | count | not => exact .refl _
  | or left right ihl ihr => exact (Regrouped.or ihl ihr).trans (regrouped_disjunction_append _ _)

/-- **Formulas can be regrouped into one another exactly if they are split into the same list.** -/
theorem regrouped_iff : Regrouped f g ↔ f.disjuncts = g.disjuncts := by
  constructor
  · intro h
    induction h with
    | refl f => rfl
    | symm _ ih => exact ih.symm
    | trans _ _ ih ih' => exact ih.trans ih'
    | or _ _ ih ih' => simp only [disjuncts, ih, ih']
    | assoc f g k => exact List.append_assoc ..
    | falsum_or f => rfl
    | or_falsum f => exact List.append_nil _
  · intro h
    have hg := regrouped_disjunction_disjuncts g
    rw [← h] at hg
    exact (regrouped_disjunction_disjuncts f).trans hg.symm

/-! ### Clauses written anew -/

/-- Negation is applied to atoms, constraints and negations of these only. -/
def IsClause : Formula → Prop
  | .falsum | .atom _ | .count _ _ => True
  | .not body => body.subject? ≠ none
  | .or left right => left.IsClause ∧ right.IsClause

instance decidableIsClause : (f : Formula) → Decidable f.IsClause
  | .falsum | .atom _ | .count _ _ => inferInstanceAs (Decidable True)
  | .not body => inferInstanceAs (Decidable (body.subject? ≠ none))
  | .or left right =>
      @instDecidableAnd _ _ (decidableIsClause left) (decidableIsClause right)

theorem IsClause.subject?_of_mem_disjuncts (h : f.IsClause) (hg : g ∈ f.disjuncts) :
    g.subject? ≠ none := by
  induction f with
  | falsum => cases hg
  | atom | count =>
      rw [List.mem_singleton.mp hg]
      exact Option.some_ne_none _
  | not body =>
      rw [List.mem_singleton.mp hg]
      exact h
  | or left right ihl ihr =>
      rcases List.mem_append.mp hg with hg | hg
      · exact ihl h.1 hg
      · exact ihr h.2 hg

theorem IsClause.isLiteral_of_mem_literals (h : f.IsClause)
    (hg : g ∈ Disjunctive.literals f) : g.isLiteral = true := by
  obtain ⟨g', hg', rfl⟩ := List.mem_map.mp hg
  refine isLiteral_of_subject? ?_
  rw [subject?_normalised]
  exact h.subject?_of_mem_disjuncts hg'

/-- The formula as it is written from its literals. -/
def rebuilt (f : Formula) : Formula := Disjunctive.ofLiterals (Disjunctive.literals f)

/-- **A clause written anew has the same literals.** -/
theorem IsClause.literals_rebuilt (h : f.IsClause) :
    Disjunctive.literals f.rebuilt = Disjunctive.literals f := by
  calc Disjunctive.literals f.rebuilt
      = (Disjunctive.literals f).flatMap Disjunctive.literals := literals_disjunction _
    _ = (Disjunctive.literals f).flatMap fun g => [g] :=
        List.flatMap_congr fun g hg =>
          (isNormal_of_mem_literals hg).literals_eq (h.isLiteral_of_mem_literals hg)
    _ = Disjunctive.literals f := List.flatMap_singleton' _

/-- **Clauses written anew are the same exactly if they have the same literals in order.** -/
theorem rebuilt_eq_iff (hf : f.IsClause) (hg : g.IsClause) :
    f.rebuilt = g.rebuilt ↔ f.disjuncts.map normalised = g.disjuncts.map normalised := by
  constructor
  · intro h
    change Disjunctive.literals f = Disjunctive.literals g
    rw [← hf.literals_rebuilt, h, hg.literals_rebuilt]
  · exact congrArg disjunction

/-- **Splitting undoes disjoining.**

A disjunction of some formulas is split into what these are split into, one after the other; any
formula is split into its leaves, from left to right.  This holds as well with a stack, and when the
disjunction is built from the end of the list.

Hence a clause written anew from the normal forms of its literals has the same literals, and clauses
come out the same exactly if the normal forms of what they are split into are the same in order.  It
does not matter how disjunctions are nested and where false occurs, and nothing but this is lost
when a formula is split. -/
theorem splitting_undoes_disjoining :
    (∀ fs : List Formula, (disjunction fs).disjuncts = fs.flatMap disjuncts) ∧
      (∀ f : Formula, f.LeavesInOrder f.disjuncts) ∧
      (∀ f : Formula, (Splitting.start f).run = f.disjuncts) ∧
      (∀ fs : List Formula, disjoin fs = disjunction fs) ∧
      (∀ f : Formula, f.IsClause → Disjunctive.literals f.rebuilt = Disjunctive.literals f) ∧
      (∀ f g : Formula, f.IsClause → g.IsClause →
        (f.rebuilt = g.rebuilt ↔ f.disjuncts.map normalised = g.disjuncts.map normalised)) ∧
      ∀ f g : Formula, (Regrouped f g ↔ f.disjuncts = g.disjuncts) ∧
        (Regrouped f g → f.rebuilt = g.rebuilt) := by
  refine ⟨disjuncts_disjunction, leavesInOrder_disjuncts, Splitting.run_start,
    disjoin_eq_disjunction, fun f hf => hf.literals_rebuilt, fun f g hf hg => rebuilt_eq_iff hf hg,
    fun f g => ⟨regrouped_iff, fun h => ?_⟩⟩
  have hsame : Disjunctive.literals f = Disjunctive.literals g :=
    congrArg (List.map normalised) (regrouped_iff.mp h)
  exact congrArg disjunction hsame

/-- The clause `((p | false) | !!q) | (false | !some r)` is written anew as `p | (q | no r)`, and so
is `!!p | (q | (!some r | false))`, which has the same literals but is no regrouping of it. -/
theorem splitting_undoes_disjoining_nested :
    let f : Formula := .or (.or (.or (.atom "p") .falsum) (.not (.not (.atom "q"))))
      (.or .falsum (.not (.count .some "r")))
    let g : Formula := .or (.not (.not (.atom "p")))
      (.or (.atom "q") (.or (.not (.count .some "r")) .falsum))
    f.IsClause ∧ g.IsClause ∧ Disjunctive.literals f.rebuilt = Disjunctive.literals f ∧
      f.rebuilt = .or (.atom "p") (.or (.atom "q") (.count .no "r")) ∧
      f.rebuilt = g.rebuilt ∧ ¬Regrouped f g ∧
      Regrouped f (.or (.atom "p") (.or (.not (.not (.atom "q"))) (.not (.count .some "r")))) := by
  intro f g
  have hf : f.IsClause := by decide
  have hg : g.IsClause := by decide
  obtain ⟨-, -, -, -, hliterals, hrebuilt, hregrouped⟩ := splitting_undoes_disjoining
  exact ⟨hf, hg, hliterals f hf, by decide, (hrebuilt f g hf hg).mpr (by decide),
    fun h => absurd ((hregrouped f g).1.mp h) (by decide), (hregrouped f _).1.mpr (by decide)⟩

end Formula
end Refutation
