import SessionGraph.Proofs.Lockstep

/-!
# The other side of a protocol

The dual of a session type is the type of the participant on the other side: what is received is
sent and what is awaited is chosen, and the other way round. Where the rules let inputs accept more,
they let outputs produce less, so what they demand of two nodes they demand of the duals in the
opposite order (`Node.demand_dual`): payloads fit the other way, and the labels that one side needs
are those that its dual needs on the other side. A comparison of two graphs is thus in lockstep with
that of their duals, from the second to the first (`Comparison.mirrors_dual`).
-/

namespace SessionGraph

/-- The other side of an exchange. -/
def Polarity.dual : Polarity → Polarity
  | .input => .output
  | .output => .input

/-- The action of the other side, with the same ids of what follows. -/
def Node.dual : Node → Node
  | .done => .done
  | .message polarity participant payload next =>
    .message polarity.dual participant payload next
  | .choice polarity participant branches => .choice polarity.dual participant branches

/-- The graph of the other side. -/
def Graph.dual (g : Graph) : Graph := { g with nodes := g.nodes.map Node.dual }

/-- The comparison of the dual graphs, the second with the first. -/
def Comparison.dual (c : Comparison) : Comparison := ⟨c.strategy, c.right.dual, c.left.dual⟩

/-! ## Demands -/

namespace Polarity

theorem dual_inj {a b : Polarity} : a.dual = b.dual ↔ a = b := by
  cases a <;> cases b <;> decide

theorem payloadFits_dual (polarity : Polarity) (left right : Payload) :
    polarity.dual.payloadFits right left = polarity.payloadFits left right := by
  cases polarity <;> rfl

/-- The duals need the same labels, which are now those of the other side. -/
theorem matchBranches_dual (polarity : Polarity) (left right : List (Label × NodeId)) :
    polarity.dual.matchBranches right left =
      ((polarity.matchBranches left right).1.map Prod.swap,
        (polarity.matchBranches left right).2) := by
  cases polarity with
  | input => simp [dual, matchBranches]
  | output => rfl

end Polarity

/-- What the rules demand of two nodes, they demand of their duals in the opposite order. -/
theorem Node.demand_dual (l r : Node) :
    r.dual.demand l.dual = (l.demand r).map Prod.swap := by
  cases l with
  | done => cases r <;> rfl
  | message polarity participant payload next =>
    cases r with
    | done => rfl
    | choice => rfl
    | message polarity' participant' payload' next' =>
      have hrule : (polarity'.dual = polarity.dual ∧ participant' = participant ∧
          polarity'.dual.payloadFits payload' payload = true) ↔
          polarity = polarity' ∧ participant = participant' ∧
            polarity.payloadFits payload payload' = true := by
        rw [Polarity.dual_inj, eq_comm, eq_comm (a := participant')]
        refine and_congr_right fun hpolarity => ?_
        rw [hpolarity, Polarity.payloadFits_dual]
      simp only [dual, demand, hrule]
      split <;> rfl
  | choice polarity participant branches =>
    cases r with
    | done => rfl
    | message => rfl
    | choice polarity' participant' branches' =>
      have hrule : (polarity'.dual = polarity.dual ∧ participant' = participant) ↔
          polarity = polarity' ∧ participant = participant' := by
        rw [Polarity.dual_inj, eq_comm, eq_comm (a := participant')]
      simp only [dual, demand, hrule]
      split
      · rename_i heq
        obtain ⟨rfl, rfl⟩ := heq
        rw [Polarity.matchBranches_dual]
        rfl
      · rfl

theorem Graph.node_dual {g : Graph} {id : NodeId} {n : Node} (h : g.node id = .ok n) :
    g.dual.node id = .ok n.dual := by
  rw [node_eq_ok_iff] at h ⊢
  simp [dual, h]

namespace Comparison

theorem roots_dual (c : Comparison) : c.dual.roots = c.roots.map Prod.swap := by
  simp only [roots, dual, Graph.dual]
  rcases c.left.root with _ | a <;> rcases c.right.root with _ | b <;> rfl

theorem mirrors_dual {c : Comparison} (hl : c.left.Traversable) (hr : c.right.Traversable) :
    c.Mirrors c.dual (fun p => c.left.Reachable p.1 ∧ c.right.Reachable p.2) Prod.swap where
  strategy := rfl
  explorable := explorable_reachable hl hr
  demandAt p d _ hd := by
    obtain ⟨l, r, hnl, hnr, rfl⟩ := demandAt_eq_ok_iff.mp hd
    exact demandAt_eq_ok_iff.mpr
      ⟨r.dual, l.dual, Graph.node_dual hnr, Graph.node_dual hnl, Node.demand_dual l r⟩
  injOn := Prod.swap_injective.injOn

/-- Comparing the dual of the second graph with the dual of the first comes to the answer that
comparing the first with the second comes to, and after as many steps. -/
theorem report_dual (c : Comparison) (polls : Polls) (hl : c.left.Traversable)
    (hr : c.right.Traversable) :
    ∃ report, c.report polls = .ok report ∧ c.dual.report polls = .ok report := by
  rcases hroots : c.roots with _ | ⟨a, b⟩
  · have hroots' : c.dual.roots = none := by rw [roots_dual, hroots]; rfl
    exact ⟨⟨false, 0⟩, by rw [report, hroots], by rw [report, hroots']⟩
  · have hroots' : c.dual.roots = some (b, a) := by rw [roots_dual, hroots]; rfl
    have hstart : c.left.Reachable a ∧ c.right.Reachable b := by
      unfold roots at hroots
      split at hroots
      · rename_i ha hb
        cases hroots
        exact ⟨.root ha, .root hb⟩
      · cases hroots
    exact (mirrors_dual hl hr).exists_report hstart hroots hroots' polls

/-- Labels in no order and one of them twice, with more payloads and more labels on the right. -/
theorem report_dual_tangle :
    let left : Graph := ⟨#[.choice .output 0 [(5, 1), (2, 0)], .message .input 1 .int 0], some 0⟩
    let right : Graph := ⟨#[.message .input 1 .nat 1, .choice .output 0 [(5, 0), (2, 1), (2, 0)]],
      some 1⟩
    left.InBounds ∧ right.InBounds ∧
    right.dual.nodes = #[.message .output 1 .nat 1, .choice .input 0 [(5, 0), (2, 1), (2, 0)]] ∧
    report ⟨.discharging, left, right⟩ .never = .ok ⟨true, 4⟩ ∧
    ∃ r, report ⟨.discharging, left, right⟩ .never = .ok r ∧
      report ⟨.discharging, right.dual, left.dual⟩ .never = .ok r := by
  intro left right
  have hl : left.InBounds := by decide
  have hr : right.InBounds := by decide
  exact ⟨hl, hr, by decide +kernel, eq_ok_of_toOption (by decide +kernel),
    report_dual ⟨.discharging, left, right⟩ .never hl.traversable hr.traversable⟩

end Comparison

end SessionGraph
