import Onestein.Lib.Saturation
import Onestein.Sync.Message

/-!
# Delivery, and the horizon

A message is delivered when all its dependencies have been delivered or lie inside the horizon of
the member. What the horizon stood in for is reported, with the message and with all that rests on
it.

## Main definitions

* `deliverability` — the delivery rule.
* `Graph.run` — delivering received messages one after the other.
* `Graph.saturation` — delivery as picking what is enabled.

## Main results

* `deliverability_of_set` — the rule looks at the dependencies as a set, and is monotone.
* `Graph.founded` — what a report of complete or of incomplete ancestry means.
* `Graph.confluent` — the order of delivery does not matter for what is delivered.
-/

namespace Onestein.Sync

/-- Whether a message may be delivered to its client. -/
inductive Deliverability where
  | ready (ancestryIncomplete : Bool)
  | waiting
  deriving DecidableEq

/-- Which messages have been delivered, and whether their ancestry was incomplete. -/
abbrev Delivered := MessageId → Option Bool

section Rule

variable (delivered : Delivered) (inHorizon : MessageId → Bool)

/-- The rest of the dependencies, with what is known of those before them. -/
def deliverability.loop : Bool → List MessageId → Deliverability
  | ancestryIncomplete, [] => .ready ancestryIncomplete
  | ancestryIncomplete, dependency :: dependencies =>
    match delivered dependency with
    -- Incompleteness travels forward.
    | some incomplete => loop (ancestryIncomplete || incomplete) dependencies
    | none => if inHorizon dependency then loop true dependencies else .waiting

/-- Applies the delivery rule. -/
def deliverability (dependencies : List MessageId) : Deliverability :=
  deliverability.loop delivered inHorizon false dependencies

end Rule

/-- The messages of a group that a member has received, with their dependencies, and the member's
horizon. -/
structure Graph where
  received : MessageId → Option (List MessageId)
  inHorizon : MessageId → Bool

namespace Graph

/-- Delivers a message that was received, was not delivered before and is ready. -/
def deliver (graph : Graph) (delivered : Delivered) (id : MessageId) : Option Delivered :=
  match graph.received id, delivered id with
  | some dependencies, none =>
    match deliverability delivered graph.inHorizon dependencies with
    | .ready ancestryIncomplete => some (Function.update delivered id (some ancestryIncomplete))
    | .waiting => none
  | _, _ => none

/-- Delivers one message after the other, from nothing delivered. -/
def run (graph : Graph) (ids : List MessageId) : Option Delivered :=
  ids.foldlM graph.deliver fun _ => none

/-- Nothing more can be delivered. -/
def Stuck (graph : Graph) (delivered : Delivered) : Prop :=
  ∀ id, graph.deliver delivered id = none

/-- A message names another as its dependency. -/
def Depends (graph : Graph) (id dependency : MessageId) : Prop :=
  ∃ dependencies, graph.received id = some dependencies ∧ dependency ∈ dependencies

end Graph

/-! ## The rule -/

section Rule

variable {delivered : Delivered} {inHorizon : MessageId → Bool} {dependencies : List MessageId}
  {ancestryIncomplete : Bool}

theorem deliverability.loop_eq_ready {before : Bool} :
    loop delivered inHorizon before dependencies = .ready ancestryIncomplete ↔
      (∀ dependency ∈ dependencies, delivered dependency ≠ none ∨ inHorizon dependency) ∧
      (ancestryIncomplete ↔ before ∨ ∃ dependency ∈ dependencies,
        delivered dependency = some true ∨ delivered dependency = none ∧ inHorizon dependency) := by
  induction dependencies generalizing before with
  | nil => cases before <;> cases ancestryIncomplete <;> simp [loop]
  | cons dependency dependencies ih =>
    simp only [loop, List.forall_mem_cons, List.exists_mem_cons_iff]
    cases hdelivered : delivered dependency with
    | some incomplete => cases incomplete <;> simp [ih]
    | none =>
      by_cases hhorizon : inHorizon dependency
      · simp [hhorizon, ih]
      · simp [hhorizon]

/-- A message is ready when each dependency was delivered or lies inside the horizon; its ancestry
is reported incomplete when one was delivered so, or only the horizon speaks for it. -/
theorem deliverability_eq_ready :
    deliverability delivered inHorizon dependencies = .ready ancestryIncomplete ↔
      (∀ dependency ∈ dependencies, delivered dependency ≠ none ∨ inHorizon dependency) ∧
      (ancestryIncomplete ↔ ∃ dependency ∈ dependencies,
        delivered dependency = some true ∨
          delivered dependency = none ∧ inHorizon dependency) := by
  simp [deliverability, deliverability.loop_eq_ready]

theorem exists_ready :
    (∃ ancestryIncomplete, deliverability delivered inHorizon dependencies =
      .ready ancestryIncomplete) ↔
      ∀ dependency ∈ dependencies, delivered dependency ≠ none ∨ inHorizon dependency := by
  simp only [deliverability_eq_ready]
  constructor
  · rintro ⟨_, hall, -⟩
    exact hall
  · intro hall
    classical
    exact ⟨decide (∃ dependency ∈ dependencies, _), hall, decide_eq_true_iff⟩

/-- A message waits exactly for a dependency that is missing and that the horizon does not
cover. -/
theorem deliverability_eq_waiting :
    deliverability delivered inHorizon dependencies = .waiting ↔
      ∃ dependency ∈ dependencies, delivered dependency = none ∧ ¬ inHorizon dependency := by
  have hwaiting : deliverability delivered inHorizon dependencies = .waiting ↔
      ¬ ∃ ancestryIncomplete, deliverability delivered inHorizon dependencies =
        .ready ancestryIncomplete := by
    cases deliverability delivered inHorizon dependencies <;> simp
  rw [hwaiting, exists_ready]
  push Not
  rfl

/-- The order of the dependencies does not matter, nor how often each of them is named. -/
theorem deliverability_congr {dependencies' : List MessageId}
    (h : ∀ dependency, dependency ∈ dependencies' ↔ dependency ∈ dependencies) :
    deliverability delivered inHorizon dependencies' =
      deliverability delivered inHorizon dependencies := by
  cases houtcome : deliverability delivered inHorizon dependencies with
  | ready ancestryIncomplete =>
    rw [deliverability_eq_ready] at houtcome ⊢
    simpa only [h] using houtcome
  | waiting =>
    rw [deliverability_eq_waiting] at houtcome ⊢
    simpa only [h] using houtcome

/-- The rule looks at the dependencies as a set. A message waits exactly for a dependency that is
missing and that the horizon does not cover, so what is ready stays ready when more is delivered or
the horizon grows. -/
theorem deliverability_of_set (delivered : Delivered) (inHorizon : MessageId → Bool)
    (dependencies : List MessageId) :
    (∀ dependencies' : List MessageId,
      (∀ dependency, dependency ∈ dependencies' ↔ dependency ∈ dependencies) →
        deliverability delivered inHorizon dependencies' =
          deliverability delivered inHorizon dependencies) ∧
    (deliverability delivered inHorizon dependencies = .waiting ↔
      ∃ dependency ∈ dependencies, delivered dependency = none ∧ ¬ inHorizon dependency) ∧
    ∀ (delivered' : Delivered) (inHorizon' : MessageId → Bool),
      (∀ id, delivered id ≠ none → delivered' id ≠ none) →
      (∀ id, inHorizon id → inHorizon' id) →
      (∃ ancestryIncomplete, deliverability delivered inHorizon dependencies =
        .ready ancestryIncomplete) →
      ∃ ancestryIncomplete, deliverability delivered' inHorizon' dependencies =
        .ready ancestryIncomplete := by
  refine ⟨fun _ => deliverability_congr, deliverability_eq_waiting, ?_⟩
  intro delivered' inHorizon' hdelivered hhorizon hready
  rw [exists_ready] at hready ⊢
  intro dependency hmem
  exact (hready dependency hmem).imp (hdelivered dependency) (hhorizon dependency)

end Rule

namespace Graph

variable {graph : Graph} {delivered after : Delivered} {id dependency : MessageId}
  {ids : List MessageId}

theorem deliver_eq_some : graph.deliver delivered id = some after ↔
    ∃ dependencies ancestryIncomplete, graph.received id = some dependencies ∧
      delivered id = none ∧
      deliverability delivered graph.inHorizon dependencies = .ready ancestryIncomplete ∧
      Function.update delivered id (some ancestryIncomplete) = after := by
  constructor
  · intro h
    unfold deliver at h
    split at h
    case h_1 dependencies hreceived hnew =>
      split at h
      case h_1 ancestryIncomplete hready =>
        exact ⟨dependencies, ancestryIncomplete, hreceived, hnew, hready, Option.some.inj h⟩
      case h_2 => cases h
    case h_2 => cases h
  · rintro ⟨dependencies, ancestryIncomplete, hreceived, hnew, hready, rfl⟩
    simp [deliver, hreceived, hnew, hready]

@[simp] theorem run_nil : graph.run [] = some fun _ => none := rfl

theorem run_concat : graph.run (ids ++ [id]) = some after ↔
    ∃ delivered, graph.run ids = some delivered ∧ graph.deliver delivered id = some after := by
  simp [run, List.foldlM_append, Option.bind_eq_some_iff]

/-! ## What is reported -/

/-- What a report means: complete ancestry is all there and complete itself, and incomplete
ancestry goes back to the horizon. -/
structure Founded (graph : Graph) (delivered : Delivered) : Prop where
  complete : ∀ {id dependency}, delivered id = some false → graph.Depends id dependency →
    delivered dependency = some false
  incomplete : ∀ {id}, delivered id = some true →
    ∃ root, Relation.TransGen graph.Depends id root ∧ graph.inHorizon root

theorem Founded.deliver (hfounded : graph.Founded delivered)
    (h : graph.deliver delivered id = some after) : graph.Founded after := by
  obtain ⟨dependencies, flag, hreceived, hnew, hready, rfl⟩ := deliver_eq_some.mp h
  obtain ⟨hall, hflag⟩ := deliverability_eq_ready.mp hready
  have hkeep {other : MessageId} {known : Bool} (hother : delivered other = some known) :
      Function.update delivered id (some flag) other = some known := by
    have hne : other ≠ id := by
      rintro rfl
      simp [hnew] at hother
    rw [Function.update_of_ne hne, hother]
  constructor
  · rintro other dependency hother ⟨dependencies', hreceived', hmem⟩
    by_cases hid : other = id
    · subst hid
      obtain rfl := Option.some.inj (hreceived.symm.trans hreceived')
      obtain rfl : flag = false := by simpa using hother
      apply hkeep
      rcases hdependency : delivered dependency with _ | _ | _
      · grind
      · rfl
      · grind
    · rw [Function.update_of_ne hid] at hother
      exact hkeep (hfounded.complete hother ⟨dependencies', hreceived', hmem⟩)
  · intro other hother
    by_cases hid : other = id
    · subst hid
      obtain rfl : flag = true := by simpa using hother
      obtain ⟨dependency, hmem, htrue | ⟨-, hhorizon⟩⟩ := hflag.mp rfl
      · obtain ⟨root, hchain, hroot⟩ := hfounded.incomplete htrue
        exact ⟨root, .head ⟨dependencies, hreceived, hmem⟩ hchain, hroot⟩
      · exact ⟨dependency, .single ⟨dependencies, hreceived, hmem⟩, hhorizon⟩
    · rw [Function.update_of_ne hid] at hother
      exact hfounded.incomplete hother

theorem founded_run (h : graph.run ids = some delivered) : graph.Founded delivered := by
  induction ids using List.reverseRecOn generalizing delivered with
  | nil =>
    obtain rfl := Option.some.inj h
    exact ⟨by simp, by simp⟩
  | append_singleton ids id ih =>
    obtain ⟨before, hrun, hdeliver⟩ := run_concat.mp h
    exact (ih hrun).deliver hdeliver

/-- Complete ancestry is never claimed falsely: all that a message rests on was delivered, itself
with complete ancestry. And incomplete ancestry is never claimed without the horizon. -/
theorem founded (h : graph.run ids = some delivered) (id : MessageId) :
    (delivered id = some false → ∀ ancestor, Relation.TransGen graph.Depends id ancestor →
      delivered ancestor = some false) ∧
    (delivered id = some true →
      ∃ root, Relation.TransGen graph.Depends id root ∧ graph.inHorizon root) := by
  have hfounded := founded_run h
  refine ⟨fun hid ancestor hchain => ?_, hfounded.incomplete⟩
  induction hchain with
  | single hdepends => exact hfounded.complete hid hdepends
  | tail _ hdepends ih => exact hfounded.complete ih hdepends

namespace Sample

/-- A message with a name of one repeated byte. -/
def name (byte : UInt8) : MessageId := ⟨.replicate 32 byte⟩

/-- A message on its own, one that rests on it and on the horizon, and one that rests on that. -/
def joined : Graph where
  received id :=
    if id = name 1 then some []
    else if id = name 2 then some [name 1, name 9]
    else if id = name 3 then some [name 2]
    else none
  inHorizon id := id = name 9

end Sample

theorem founded_sample : ∃ delivered, Sample.joined.run [Sample.name 1, Sample.name 2,
      Sample.name 3] = some delivered ∧ delivered (Sample.name 3) = some true ∧
    ∃ root, Relation.TransGen Sample.joined.Depends (Sample.name 3) root ∧
      Sample.joined.inHorizon root :=
  have hrun : Sample.joined.run [Sample.name 1, Sample.name 2, Sample.name 3] = some _ := rfl
  ⟨_, hrun, rfl, (founded hrun (Sample.name 3)).2 rfl⟩

/-! ## The order of delivery -/

/-- Delivery as picking what is enabled: the rule only asks what was delivered. -/
def saturation (graph : Graph) : Saturation MessageId where
  Enabled delivered id := ∃ dependencies, graph.received id = some dependencies ∧
    ∀ dependency ∈ dependencies, dependency ∈ delivered ∨ graph.inHorizon dependency
  mono := by
    rintro s t id hst ⟨dependencies, hreceived, hall⟩
    exact ⟨dependencies, hreceived, fun dependency hmem => (hall dependency hmem).imp_left (hst ·)⟩

theorem exists_deliver : (∃ after, graph.deliver delivered id = some after) ↔
    delivered id = none ∧ graph.saturation.Enabled {id | delivered id ≠ none} id := by
  simp only [deliver_eq_some, deliverability_eq_ready]
  constructor
  · rintro ⟨_, dependencies, _, hreceived, hnew, ⟨hall, -⟩, -⟩
    exact ⟨hnew, dependencies, hreceived, hall⟩
  · rintro ⟨hnew, dependencies, hreceived, hall⟩
    classical
    exact ⟨_, dependencies, decide (∃ dependency ∈ dependencies, _), hreceived, hnew,
      ⟨hall, decide_eq_true_iff⟩, rfl⟩

/-- What a run has delivered is what it was asked to deliver. -/
theorem run_eq_none (h : graph.run ids = some delivered) (id : MessageId) :
    delivered id = none ↔ id ∉ ids := by
  induction ids using List.reverseRecOn generalizing delivered with
  | nil =>
    obtain rfl := Option.some.inj h
    simp
  | append_singleton ids last ih =>
    obtain ⟨before, hrun, hdeliver⟩ := run_concat.mp h
    obtain ⟨_, flag, -, -, -, rfl⟩ := deliver_eq_some.mp hdeliver
    rw [List.mem_append, List.mem_singleton, not_or, ← ih hrun]
    by_cases hid : id = last
    · simp [hid]
    · simp [hid, Function.update_of_ne]

theorem setOf_run (h : graph.run ids = some delivered) :
    {id | delivered id ≠ none} = {id | id ∈ ids} :=
  Set.ext fun id => not_iff_comm.mp (run_eq_none h id).symm

theorem exists_run : (∃ delivered, graph.run ids = some delivered) ↔ graph.saturation.Run ids := by
  induction ids using List.reverseRecOn with
  | nil => exact iff_of_true ⟨_, rfl⟩ .nil
  | append_singleton ids last ih =>
    simp only [run_concat, Saturation.run_concat, ← ih]
    constructor
    · rintro ⟨after, delivered, hrun, hdeliver⟩
      obtain ⟨hnew, henabled⟩ := exists_deliver.mp ⟨after, hdeliver⟩
      rw [setOf_run hrun] at henabled
      exact ⟨⟨delivered, hrun⟩, (run_eq_none hrun last).mp hnew, henabled⟩
    · rintro ⟨⟨delivered, hrun⟩, hnew, henabled⟩
      rw [← setOf_run hrun] at henabled
      obtain ⟨after, hdeliver⟩ := exists_deliver.mpr ⟨(run_eq_none hrun last).mpr hnew, henabled⟩
      exact ⟨after, delivered, hrun, hdeliver⟩

theorem stuck_iff_maximal (h : graph.run ids = some delivered) :
    graph.Stuck delivered ↔ graph.saturation.Maximal ids := by
  have hnone (id : MessageId) : graph.deliver delivered id = none ↔
      (id ∉ ids → ¬ graph.saturation.Enabled {id | id ∈ ids} id) := by
    rw [← run_eq_none h id, ← setOf_run h, ← not_and, ← exists_deliver,
      Option.eq_none_iff_forall_ne_some, not_exists]
  rw [Saturation.Maximal, ← exists_run, and_iff_right ⟨delivered, h⟩]
  exact forall_congr' hnone

/-- Delivery is confluent: whatever the order, the same is delivered once nothing more can be. What
a message depends on is delivered before it, or lies inside the horizon. And where finitely much was
received, every run can be continued until nothing more can be delivered. -/
theorem confluent (graph : Graph) :
    (∀ ids ids' delivered delivered', graph.run ids = some delivered → graph.Stuck delivered →
      graph.run ids' = some delivered' → graph.Stuck delivered' →
      ∀ id, delivered id ≠ none ↔ delivered' id ≠ none) ∧
    (∀ before id after delivered, graph.run (before ++ id :: after) = some delivered →
      ∀ dependency, graph.Depends id dependency →
        dependency ∈ before ∨ graph.inHorizon dependency) ∧
    ({id | graph.received id ≠ none}.Finite →
      ∀ ids delivered, graph.run ids = some delivered → ∃ rest delivered',
        graph.run (ids ++ rest) = some delivered' ∧ graph.Stuck delivered') := by
  refine ⟨?_, ?_, ?_⟩
  · intro ids ids' delivered delivered' hrun hstuck hrun' hstuck' id
    rw [Ne, Ne, run_eq_none hrun, run_eq_none hrun']
    exact not_congr (not_congr (((stuck_iff_maximal hrun).mp hstuck).mem_iff
      ((stuck_iff_maximal hrun').mp hstuck')))
  · rintro before id after delivered hrun dependency ⟨dependencies, hreceived, hmem⟩
    obtain ⟨dependencies', hreceived', hall⟩ := (exists_run.mp ⟨delivered, hrun⟩).enabled
    obtain rfl := Option.some.inj (hreceived.symm.trans hreceived')
    exact hall dependency hmem
  · intro hfinite ids delivered hrun
    have henabled : {id | ∃ s, graph.saturation.Enabled s id}.Finite := by
      refine hfinite.subset ?_
      rintro id ⟨s, dependencies, hreceived, -⟩
      simp [hreceived]
    obtain ⟨rest, hmax⟩ := (exists_run.mp ⟨delivered, hrun⟩).exists_maximal henabled
    obtain ⟨delivered', hrun'⟩ := exists_run.mpr hmax.1
    exact ⟨rest, delivered', hrun', (stuck_iff_maximal hrun').mpr hmax⟩

end Graph

end Onestein.Sync
