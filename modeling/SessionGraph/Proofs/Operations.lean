import Mathlib.Logic.Relation
import SessionGraph.Proofs.Families
import SessionGraph.Proofs.Unrolling
import SessionGraph.Proofs.Writing
import SessionGraph.Workspace

/-!
# Graphs built by operations are well formed

A step does one thing to one of the named graphs of a workspace, short of putting it together by
hand: it makes a graph from a term or as a member of a family, with any source of draws, or it
clears, copies, unrolls or reads graphs that are there. The source of a copy may be any of them,
also the target itself. Each step keeps all graphs well formed, so they are after any number of
steps; and what is done to well-formed graphs does not fail as long as the node ids suffice.
-/

namespace SessionGraph

/-! ## Work that comes to a result -/

/-- The work comes to the result `a`. -/
def Journal.Yields {α : Type} (work : Journal α) (a : α) : Prop :=
  ∃ before after, work.run.run before = (.ok a, after)

namespace Journal

variable {α β : Type} {x : Journal α} {f : α → Journal β} {a b : α}

theorem Yields.bind {b : β} (h : Yields (x >>= f) b) : ∃ a, Yields x a ∧ Yields (f a) b := by
  obtain ⟨before, after, h⟩ := h
  rw [ExceptT.run_bind, StateT.run_bind] at h
  rcases hx : x.run.run before with ⟨error | a, middle⟩
  · rw [hx] at h
    cases h
  · rw [hx] at h
    exact ⟨a, ⟨before, middle, hx⟩, middle, after, h⟩

theorem Yields.pure (h : Yields (pure a : Journal α) b) : b = a := by
  obtain ⟨before, after, h⟩ := h
  cases h
  rfl

theorem Yields.lift {x : Except Fault α} (h : Yields (liftM x : Journal α) a) : x = .ok a := by
  obtain ⟨before, after, h⟩ := h
  cases x with
  | error fault => cases h
  | ok a' =>
    cases h
    rfl

theorem Yields.liftError {x : Except Error α} (h : Yields (liftM x : Journal α) a) :
    x = .ok a := by
  obtain ⟨before, after, h⟩ := h
  cases x with
  | error error => cases h
  | ok a' =>
    cases h
    rfl

theorem Yields.unroll {g g' : Graph} (h : Yields (Journal.unroll g) g') : g.unroll = .ok g' := by
  obtain ⟨unrolled, hunroll, h⟩ := h.bind
  rw [hunroll.lift]
  split at h
  · obtain ⟨_, -, h⟩ := h.bind
    rw [h.pure]
  · rw [h.pure]

end Journal

/-! ## Recipes -/

/-- Whether the nodes of the graph are given one by one. -/
def Recipe.byHand : Recipe → Bool
  | .ofNodes _ _ => true
  | .unrolled recipe => recipe.byHand
  | _ => false

theorem Recipe.wellFormed_make {recipe : Recipe} {g : Graph} (hrecipe : recipe.byHand = false)
    (h : recipe.make.Yields g) : g.WellFormed := by
  induction recipe generalizing g with
  | ofNodes nodes root => cases hrecipe
  | ofTerm term =>
    rw [make] at h
    exact Term.wellFormed_toGraph h.liftError
  | ofFamily family seed =>
    rw [make] at h
    obtain ⟨⟨g', seed'⟩, hg', h⟩ := h.bind
    cases h.pure
    obtain ⟨drawing, hdrawing, hrun⟩ := bind_eq_ok_iff.mp hg'.lift
    exact Family.wellFormed_draw hdrawing ⟨seed, seed', hrun⟩
  | unrolled recipe ih =>
    rw [make] at h
    obtain ⟨g', hg', h⟩ := h.bind
    exact (ih hrecipe hg').unroll h.unroll

/-! ## Steps -/

/-- Whether the graph is changed by hand. -/
def Action.byHand : Action → Bool
  | .make recipe => recipe.byHand
  | .push _ => true
  | .setRoot _ => true
  | .setNode _ _ => true
  | .setSuccessor _ _ _ => true
  | _ => false

namespace Workspace

variable {w w' : Workspace} {name name' : String} {g : Graph}

theorem get_set_self : (w.set name g).get name = g := by
  simp [get, set]

theorem get_set_of_ne (h : name' ≠ name) : (w.set name g).get name' = w.get name' := by
  have hlookup : ∀ graphs : List (String × Graph),
      (graphs.filter (·.1 ≠ name)).lookup name' = graphs.lookup name' := by
    intro graphs
    induction graphs with
    | nil => rfl
    | cons entry graphs ih =>
      by_cases hentry : entry.1 = name
      · rw [List.filter_cons_of_neg (by simpa using hentry), ih, List.lookup_cons, hentry,
          beq_false_of_ne h]
      · rw [List.filter_cons_of_pos (by simpa using hentry), List.lookup_cons, List.lookup_cons, ih]
  rw [get, get, set, List.lookup_cons, beq_false_of_ne h, hlookup]

/-- All graphs are well formed. -/
def WellFormed (w : Workspace) : Prop := ∀ name, (w.get name).WellFormed

theorem wellFormed_empty : empty.WellFormed := fun _ => Graph.wellFormed_empty

theorem WellFormed.set (hw : w.WellFormed) (hg : g.WellFormed) : (w.set name g).WellFormed := by
  intro name'
  by_cases h : name' = name
  · rw [h, get_set_self]
    exact hg
  · rw [get_set_of_ne h]
    exact hw name'

theorem WellFormed.copySource (hw : w.WellFormed) (h : w.copySource name name' = .ok g) :
    g.WellFormed := by
  unfold Workspace.copySource at h
  split at h
  · exact (hw name').copy h
  · cases h
    exact hw name'

theorem WellFormed.act {action : Action} {reply : Reply} (hw : w.WellFormed)
    (haction : action.byHand = false) (h : (w.act name action).Yields (w', reply)) :
    w'.WellFormed := by
  cases action with
  | push node => cases haction
  | setRoot index => cases haction
  | setNode index node => cases haction
  | setSuccessor index slot target => cases haction
  | clear =>
    cases h.pure
    exact hw.set Graph.wellFormed_empty
  | make recipe =>
    obtain ⟨g, hg, h⟩ := h.bind
    cases h.pure
    exact hw.set (Recipe.wellFormed_make haction hg)
  | graft source rooted =>
    obtain ⟨s, hs, h⟩ := h.bind
    obtain ⟨⟨g, block⟩, hg, h⟩ := h.bind
    obtain ⟨targets, -, h⟩ := h.bind
    cases h.pure
    exact hw.set ((hw name).graft (hw.copySource hs.lift) hg.lift).1
  | copyFrom source =>
    obtain ⟨s, hs, h⟩ := h.bind
    obtain ⟨g, hg, h⟩ := h.bind
    cases h.pure
    exact hw.set ((hw.copySource hs.lift).copy hg.lift)
  | unroll source =>
    obtain ⟨g, hg, h⟩ := h.bind
    cases h.pure
    exact hw.set ((hw source).unroll hg.unroll)
  | readNode index =>
    obtain ⟨id, -, h⟩ := h.bind
    obtain ⟨node, -, h⟩ := h.bind
    cases h.pure
    exact hw
  | measure =>
    cases h.pure
    exact hw
  | equals other =>
    cases h.pure
    exact hw
  | write =>
    obtain ⟨text, -, h⟩ := h.bind
    cases h.pure
    exact hw
  | compare other strategies cancelled =>
    obtain ⟨reports, -, h⟩ := h.bind
    cases h.pure
    exact hw

/-- One thing is done to the graph with a name, but not by hand. -/
inductive Step (w : Workspace) : Workspace → Prop
  | act {name : String} {action : Action} {reply : Reply} {w' : Workspace}
      (haction : action.byHand = false) (h : (w.act name action).Yields (w', reply)) : Step w w'
  | draw {σ : Type} {source : Source σ} {family : Family} {drawing : Drawing σ Graph}
      {name : String} {g : Graph} (h : family.draw source = .ok drawing) (hg : drawing.Gives g) :
      Step w (w.set name g)

theorem WellFormed.step (hw : w.WellFormed) (h : w.Step w') : w'.WellFormed := by
  cases h with
  | act haction h => exact hw.act haction h
  | draw h hg => exact hw.set (Family.wellFormed_draw h hg)

theorem WellFormed.run (hw : w.WellFormed) (h : Relation.ReflTransGen Step w w') :
    w'.WellFormed := by
  induction h with
  | refl => exact hw
  | tail _ hstep ih => exact ih.step hstep

end Workspace

/-! ## Well-formed graphs can be worked with -/

namespace Graph.WellFormed

variable {g s : Graph}

theorem exists_report (hg : g.WellFormed) (hs : s.WellFormed) (strategy : Strategy)
    (polls : Polls) : ∃ report, Comparison.report ⟨strategy, g, s⟩ polls = .ok report := by
  rcases ha : g.root with _ | a
  · exact ⟨⟨false, 0⟩, by simp only [Comparison.report, Comparison.roots, ha]⟩
  · rcases hb : s.root with _ | b
    · exact ⟨⟨false, 0⟩, by simp only [Comparison.report, Comparison.roots, ha, hb]⟩
    · have hstart : g.Reachable (a, b).1 ∧ s.Reachable (a, b).2 := ⟨.root ha, .root hb⟩
      obtain ⟨w, hw⟩ := Comparison.exists_walk (c := ⟨strategy, g, s⟩)
        (explorable_reachable hg.inBounds.traversable hs.inBounds.traversable) hstart
      exact ⟨_, Comparison.report_of_walk (Comparison.roots_eq_some ha hb) hw⟩

theorem exists_graft (hs : s.WellFormed) (hspace : g.size + s.size ≤ NodeId.limit)
    (rooted : Bool) : ∃ r, g.graft s rooted = .ok r :=
  ⟨_, graft_eq_ok hs.inBounds hspace rooted⟩

theorem exists_unroll (hg : g.WellFormed)
    (hspace : (g.unrollingCopies + 1) * g.size ≤ NodeId.limit) : ∃ u, g.unroll = .ok u := by
  cases hroot : g.root with
  | none =>
    simp only [unrollingCopies, hroot, Nat.zero_add, Nat.one_mul] at hspace
    refine ⟨g, ?_⟩
    rw [Graph.unroll, copy_eq_ok hg.inBounds hspace, hroot]
    rfl
  | some root =>
    obtain ⟨u, hu, -⟩ := Graph.exists_unroll hg.inBounds hroot hspace
    exact ⟨u, hu⟩

end Graph.WellFormed

namespace Workspace

/-- Whatever is done step by step, all graphs are well formed; and well-formed graphs can be
compared, written, copied and unrolled as long as the node ids suffice for the result. -/
theorem built_wellFormed_usable :
    (∀ w, Relation.ReflTransGen Step empty w → ∀ name, (w.get name).WellFormed) ∧
    ∀ g s : Graph, g.WellFormed → s.WellFormed →
      (∀ strategy polls, ∃ report, Comparison.report ⟨strategy, g, s⟩ polls = .ok report) ∧
      (∃ text, g.text = .ok text) ∧
      (g.size ≤ NodeId.limit → g.copy = .ok g) ∧
      (∀ rooted, g.size + s.size ≤ NodeId.limit → ∃ r, g.graft s rooted = .ok r) ∧
      ((g.unrollingCopies + 1) * g.size ≤ NodeId.limit → ∃ u, g.unroll = .ok u) := by
  refine ⟨fun w hrun => wellFormed_empty.run hrun, fun g s hg hs => ?_⟩
  exact ⟨hg.exists_report hs, Graph.exists_text hg.inBounds.traversable,
    Graph.copy_eq_ok hg.inBounds, fun rooted hspace => hs.exists_graft hspace rooted,
    hg.exists_unroll⟩

/-- A choice is copied behind a type that was drawn, and the two together are unrolled. -/
theorem built_wellFormed_usable_unrolled :
    let u : Graph := ⟨#[.message .input 0 .int 1, .message .input 0 .int 4,
      .choice .input 1 [(0, 2), (4, 3)], .done, .message .input 0 .int 5,
      .message .input 0 .int 4, .choice .input 1 [(0, 6), (4, 7)], .done], some 0⟩
    ∃ w, Relation.ReflTransGen Step empty w ∧ w.get "a" = u ∧ u.WellFormed ∧
      (∃ text, u.text = .ok text) ∧ u.copy = .ok u ∧
      (∃ r, u.graft (w.get "b") true = .ok r) ∧ (∃ u', u.unroll = .ok u') ∧
      ∀ strategy polls, ∃ report,
        Comparison.report ⟨strategy, u, w.get "b"⟩ polls = .ok report := by
  intro u
  let loop : Term := .mu 0 (.choice .input 1 [(0, .var 0), (4, .done)])
  let zeros : Source Unit := ⟨fun _ _ positive => pure ⟨0, positive⟩, pure true, 1⟩
  let b : Graph := ⟨#[.message .input 0 .int 1, .message .input 0 .int 0], some 0⟩
  let w₁ := empty.set "a" ⟨#[.choice .input 1 [(0, 0), (4, 1)], .done], some 0⟩
  let w₂ := w₁.set "b" b
  let w₃ : Workspace := { w₂.set "b" ⟨#[.message .input 0 .int 1, .message .input 0 .int 0,
    .choice .input 1 [(0, 2), (4, 3)], .done], some 0⟩ with lastCopy := ⟨2, 2⟩ }
  have h₁ : (empty.act "a" (.make (.ofTerm loop))).Yields (w₁, .nothing) := ⟨#[], _, rfl⟩
  obtain ⟨drawing, hdrawing, h₂⟩ : ∃ drawing,
      (Family.random ⟨3, 4, true, 2⟩).draw zeros = .ok drawing ∧ drawing.Gives b :=
    ⟨_, rfl, (), (), rfl⟩
  have h₃ : (w₂.act "b" (.graft "a" false)).Yields (w₃, .copied 2 [2, 3]) := ⟨#[], _, rfl⟩
  have h₄ : (w₃.act "a" (.unroll "b")).Yields (w₃.set "a" u, .nothing) := ⟨#[], _, rfl⟩
  have hrun : Relation.ReflTransGen Step empty (w₃.set "a" u) :=
    (((Relation.ReflTransGen.single (.act rfl h₁)).tail (.draw hdrawing h₂)).tail
      (.act rfl h₃)).tail (.act rfl h₄)
  have hu : u.WellFormed := built_wellFormed_usable.1 _ hrun "a"
  obtain ⟨hreport, htext, hcopy, hgraft, hunroll⟩ :=
    built_wellFormed_usable.2 u _ hu (built_wellFormed_usable.1 _ hrun "b")
  exact ⟨_, hrun, rfl, hu, htext, hcopy (by decide), hgraft true (by decide),
    hunroll (by decide), hreport⟩

end Workspace

end SessionGraph
