import Onestein.Sync.Delivery

/-!
# What is delivered in the end, and what waits

Which messages are delivered does not need a run to be told: those that rest on received messages
all the way down, or on the horizon. Only what is missing and what rests on itself keeps a message
waiting. Where the horizon speaks for no message that is there, the reports are the same in every
order too.

## Main definitions

* `Graph.Deliverable` — a message rests on received messages and on the horizon.
* `Graph.Blocks` — a message is missing, or rests on itself.

## Main results

* `Graph.deliverable_iff_lfp` — the deliverable messages are the least fixed point of the rule.
* `Graph.delivered_iff` — what is delivered in the end, and what is not.
* `Graph.reports_exact` — what is reported in the end.
-/

namespace Onestein.Sync

namespace Graph

/-- A message was received, and each of its dependencies lies inside the horizon or rests on
received messages in the same way. -/
inductive Deliverable (graph : Graph) : MessageId → Prop
  | intro {id : MessageId} {dependencies : List MessageId}
      (hreceived : graph.received id = some dependencies)
      (hall : ∀ dependency ∈ dependencies, ¬ graph.inHorizon dependency →
        graph.Deliverable dependency) : graph.Deliverable id

/-- A message rests on a dependency for which the horizon does not speak. -/
def RestsOn (graph : Graph) (id dependency : MessageId) : Prop :=
  graph.Depends id dependency ∧ ¬ graph.inHorizon dependency

/-- A message is missing, or rests on itself. -/
def Blocks (graph : Graph) (id : MessageId) : Prop :=
  graph.received id = none ∨ Relation.TransGen graph.RestsOn id id

/-- More was received, and the horizon covers more. -/
structure Extends (graph more : Graph) : Prop where
  received : ∀ {id dependencies}, graph.received id = some dependencies →
    more.received id = some dependencies
  inHorizon : ∀ {id}, graph.inHorizon id → more.inHorizon id

variable {graph more : Graph} {id dependency : MessageId} {ids ids' : List MessageId}
  {delivered delivered' : Delivered}

/-- The deliverable messages are the least fixed point of the rule. -/
theorem deliverable_iff_lfp : graph.Deliverable id ↔ id ∈ graph.saturation.step.lfp := by
  constructor
  · intro h
    induction h with
    | intro hreceived _ ih =>
      refine graph.saturation.step.map_lfp.le ⟨_, hreceived, fun dependency hmem => ?_⟩
      by_cases hhorizon : graph.inHorizon dependency
      · exact .inr hhorizon
      · exact .inl (ih dependency hmem hhorizon)
  · intro h
    have hclosed :
        graph.saturation.step {id | graph.Deliverable id} ≤ {id | graph.Deliverable id} := by
      rintro id ⟨dependencies, hreceived, hall⟩
      exact .intro hreceived fun dependency hmem hhorizon =>
        (hall dependency hmem).resolve_right hhorizon
    exact OrderHom.lfp_le _ hclosed h

theorem ne_none_iff_deliverable (hrun : graph.run ids = some delivered)
    (hstuck : graph.Stuck delivered) : delivered id ≠ none ↔ graph.Deliverable id := by
  rw [deliverable_iff_lfp, ← ((stuck_iff_maximal hrun).mp hstuck).setOf_eq_lfp, ← setOf_run hrun]
  rfl

/-- More messages and a larger horizon never make a message undeliverable. -/
theorem Deliverable.mono (h : graph.Deliverable id) (hmore : graph.Extends more) :
    more.Deliverable id := by
  induction h with
  | intro hreceived _ ih =>
    refine .intro (hmore.received hreceived) fun dependency hmem hhorizon => ?_
    exact ih dependency hmem fun h => hhorizon (hmore.inHorizon h)

theorem Deliverable.restsOn (h : graph.Deliverable id) (hrests : graph.RestsOn id dependency) :
    graph.Deliverable dependency := by
  obtain ⟨⟨dependencies, hreceived, hmem⟩, hhorizon⟩ := hrests
  cases h with
  | intro hreceived' hall =>
    obtain rfl := Option.some.inj (hreceived.symm.trans hreceived')
    exact hall dependency hmem hhorizon

/-- What is deliverable does not rest on itself. -/
theorem Deliverable.not_blocks (h : graph.Deliverable id) : ¬ graph.Blocks id := by
  rintro (hmissing | hcycle)
  · cases h with
    | intro hreceived _ => simp [hmissing] at hreceived
  · induction h with
    | @intro id dependencies hreceived _ ih =>
      -- The first step of a cycle leads to a dependency that is on the cycle too.
      obtain ⟨dependency, ⟨⟨dependencies', hreceived', hmem⟩, hhorizon⟩, hback⟩ :=
        Relation.TransGen.head'_iff.mp hcycle
      obtain rfl := Option.some.inj (hreceived.symm.trans hreceived')
      exact ih dependency hmem hhorizon
        (.tail' hback ⟨⟨dependencies, hreceived, hmem⟩, hhorizon⟩)

theorem exists_restsOn_of_not_deliverable (h : ¬ graph.Deliverable id)
    (hreceived : graph.received id ≠ none) :
    ∃ dependency, ¬ graph.Deliverable dependency ∧ graph.RestsOn id dependency := by
  obtain ⟨dependencies, hreceived⟩ := Option.ne_none_iff_exists'.mp hreceived
  by_contra! hnone
  refine h (.intro hreceived fun dependency hmem hhorizon => ?_)
  by_contra hnot
  exact hnone dependency hnot ⟨⟨dependencies, hreceived, hmem⟩, hhorizon⟩

/-- Where finitely much was received, a message is delivered unless it rests on one that blocks. -/
theorem deliverable_iff_forall_not_blocks (hfinite : {id | graph.received id ≠ none}.Finite) :
    graph.Deliverable id ↔
      ∀ below, Relation.ReflTransGen graph.RestsOn id below → ¬ graph.Blocks below := by
  constructor
  · intro h below hpath
    have hbelow : graph.Deliverable below := by
      induction hpath with
      | refl => exact h
      | tail _ hrests ih => exact ih.restsOn hrests
    exact hbelow.not_blocks
  · intro hnone
    by_contra h
    have hnext : ∀ below ∈ {id | ¬ graph.Deliverable id}, below ∈ {id | graph.received id ≠ none} →
        ∃ other ∈ {id | ¬ graph.Deliverable id}, graph.RestsOn below other :=
      fun _ => exists_restsOn_of_not_deliverable
    obtain ⟨below, -, hpath, hblocks⟩ := exists_outside_or_cycle hfinite hnext h
    exact hnone below hpath (hblocks.imp_left (by simpa using ·))

/-- What is delivered in the end, in whatever order: the messages that rest on received ones all the
way down, or on the horizon. Where finitely much was received, a message waits exactly if it rests
on a missing one or on one that rests on itself; and what arrives later, or a larger horizon, takes
nothing back. -/
theorem delivered_iff (graph : Graph) :
    (∀ ids delivered, graph.run ids = some delivered → graph.Stuck delivered →
      ∀ id, delivered id ≠ none ↔ graph.Deliverable id) ∧
    ({id | graph.received id ≠ none}.Finite → ∀ id, graph.Deliverable id ↔
      ∀ below, Relation.ReflTransGen graph.RestsOn id below →
        graph.received below ≠ none ∧ ¬ Relation.TransGen graph.RestsOn below below) ∧
    ∀ more, graph.Extends more → ∀ id, graph.Deliverable id → more.Deliverable id := by
  refine ⟨fun _ _ hrun hstuck _ => ne_none_iff_deliverable hrun hstuck, fun hfinite id => ?_,
    fun _ hmore _ h => h.mono hmore⟩
  simp only [deliverable_iff_forall_not_blocks hfinite, Blocks, not_or, ne_eq]

/-! ## Reports -/

theorem received_of_run (hrun : graph.run ids = some delivered) (h : delivered id ≠ none) :
    graph.received id ≠ none := by
  induction ids using List.reverseRecOn generalizing delivered with
  | nil =>
    obtain rfl := Option.some.inj hrun
    simp at h
  | append_singleton ids last ih =>
    obtain ⟨before, hbefore, hdeliver⟩ := run_concat.mp hrun
    obtain ⟨dependencies, flag, hreceived, -, -, rfl⟩ := deliver_eq_some.mp hdeliver
    by_cases hid : id = last
    · simp [hid, hreceived]
    · exact ih hbefore (by simpa [Function.update_of_ne hid] using h)

/-- Where the horizon speaks for no message that is there, ancestry is reported incomplete exactly
if it reaches the horizon. -/
theorem eq_some_true_iff (hhorizon : ∀ id, graph.inHorizon id → graph.received id = none)
    (hrun : graph.run ids = some delivered) (h : delivered id ≠ none) :
    delivered id = some true ↔
      ∃ root, Relation.TransGen graph.Depends id root ∧ graph.inHorizon root := by
  have hfounded := founded_run hrun
  refine ⟨hfounded.incomplete, ?_⟩
  rintro ⟨root, hchain, hroot⟩
  by_contra hnot
  have hfalse : delivered id = some false := by
    rcases hid : delivered id with _ | _ | _ <;> simp_all
  -- Complete ancestry is delivered all the way up, and the horizon is not.
  have hdelivered : delivered root = some false := by
    clear hroot
    induction hchain with
    | single hdepends => exact hfounded.complete hfalse hdepends
    | tail _ hdepends ih => exact hfounded.complete ih hdepends
  exact received_of_run hrun (by simp [hdelivered]) (hhorizon root hroot)

/-- Where the horizon speaks for no message that is there, the reports do not depend on the order: a
message is reported with incomplete ancestry exactly if its ancestry reaches the horizon, and in the
end every order has delivered the same messages with the same reports. -/
theorem reports_exact (graph : Graph)
    (hhorizon : ∀ id, graph.inHorizon id → graph.received id = none) :
    (∀ ids delivered, graph.run ids = some delivered → ∀ id, delivered id ≠ none →
      (delivered id = some true ↔
        ∃ root, Relation.TransGen graph.Depends id root ∧ graph.inHorizon root)) ∧
    ∀ ids ids' delivered delivered', graph.run ids = some delivered → graph.Stuck delivered →
      graph.run ids' = some delivered' → graph.Stuck delivered' → delivered = delivered' := by
  refine ⟨fun _ _ hrun _ h => eq_some_true_iff hhorizon hrun h, ?_⟩
  intro ids ids' delivered delivered' hrun hstuck hrun' hstuck'
  funext id
  have hsame : delivered id ≠ none ↔ delivered' id ≠ none :=
    (ne_none_iff_deliverable hrun hstuck).trans (ne_none_iff_deliverable hrun' hstuck').symm
  by_cases h : delivered id = none
  · rw [h, not_not.mp fun h' => hsame.mpr h' h]
  · have hreports : delivered id = some true ↔ delivered' id = some true :=
      (eq_some_true_iff hhorizon hrun h).trans (eq_some_true_iff hhorizon hrun' (hsame.mp h)).symm
    rcases hid : delivered id with _ | _ | _ <;> rcases hid' : delivered' id with _ | _ | _ <;>
      simp_all

/-- Of the three messages, the second rests on the horizon, and the third with it. -/
theorem reports_exact_sample : ∃ delivered, Sample.joined.run [Sample.name 1, Sample.name 2,
      Sample.name 3] = some delivered ∧ (delivered (Sample.name 3) = some true ↔
    ∃ root, Relation.TransGen Sample.joined.Depends (Sample.name 3) root ∧
      Sample.joined.inHorizon root) := by
  have hrun : Sample.joined.run [Sample.name 1, Sample.name 2, Sample.name 3] = some _ := rfl
  have hhorizon : ∀ id, Sample.joined.inHorizon id → Sample.joined.received id = none := by
    intro id h
    obtain rfl : id = Sample.name 9 := of_decide_eq_true h
    rfl
  exact ⟨_, hrun, (reports_exact Sample.joined hhorizon).1 _ _ hrun (Sample.name 3) (by decide)⟩

end Graph

end Onestein.Sync
