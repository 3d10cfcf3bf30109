import Onestein.Transport.Window

/-!
# The counter on the sending side

The counter hands out the stream numbers of a period. It has two fields, and only the next
number is stored across a restart.

## Main definitions

* `StreamCounter.KeepsAll` — a call after which the number kept says all there is to say.
* `StreamCounter.StopsAfterLoss` — nothing is taken behind a restart that loses something.

## Main results

* `StreamCounter.taken_nodup` — while no restart meets an exhausted counter, no number is
  handed out twice.
* `StreamCounter.taken_nodup_iff` — exactly then, but for restarts behind which none is taken.
-/

namespace Onestein.Transport

/-- The count of streams sent to one peer in one period. -/
structure StreamCounter where
  next : UInt64
  exhausted : Bool
  deriving DecidableEq

namespace StreamCounter

/-- A counter at the start of a period: `restore 0`. -/
def new : StreamCounter := ⟨0, false⟩

/-- The counter from the number the caller stored. -/
def restore (next : UInt64) : StreamCounter := ⟨next, false⟩

/-- The number the next stream will use, to be stored before it is used. -/
def peek (c : StreamCounter) : UInt64 := c.next

/-- Takes the next stream number. -/
def take (c : StreamCounter) : StreamCounter × Except WindowError UInt64 :=
  if c.exhausted then
    (c, .error .counterExhausted)
  else
    match c.next.checkedAdd 1 with
    | some following => ({ c with next := following }, .ok c.next)
    -- the last number is handed out, then the counter stops
    | none => ({ c with exhausted := true }, .ok c.next)

/-- What a caller does with a counter: take a number, or restart from the stored one. -/
inductive Call where
  | take
  | restart
  deriving DecidableEq

/-- One call, with the number it handed out. -/
def step (c : StreamCounter) : Call → StreamCounter × Option UInt64
  | .take => (c.take.1, c.take.2.toOption)
  | .restart => (restore c.peek, none)

/-- The numbers a run of calls hands out, in order. -/
def taken (c : StreamCounter) (calls : List Call) : List UInt64 :=
  (Run.outputs step c calls).filterMap id

/-- The restart loses nothing: the number it keeps says all there is to say. -/
def KeepsAll (c : StreamCounter) : Call → Prop
  | .take => True
  | .restart => c.exhausted = false

/-- The numbers a counter will not hand out any more. -/
def Past (c : StreamCounter) (n : UInt64) : Prop := n < c.next ∨ c.exhausted

/-- A number is handed out by a counter that is not exhausted, and is its next one. -/
theorem take_eq_ok {c : StreamCounter} {n : UInt64} :
    c.take.2 = .ok n ↔ c.exhausted = false ∧ n = c.next := by
  unfold take
  cases hex : c.exhausted with
  | true => simp
  | false => cases c.next.checkedAdd 1 <;> simp [eq_comm]

/-- Taking moves past the number handed out and keeps what was past. -/
theorem past_take {c : StreamCounter} {n : UInt64}
    (h : c.Past n ∨ c.exhausted = false ∧ n = c.next) : c.take.1.Past n := by
  unfold take
  cases hex : c.exhausted with
  | true => exact .inr hex
  | false =>
    cases hadd : c.next.checkedAdd 1 with
    | none => exact .inr rfl
    | some following =>
      rw [UInt64.checkedAdd_eq_some] at hadd
      have hone : (1 : UInt64).toNat = 1 := rfl
      apply Or.inl
      show n < following
      rw [UInt64.lt_iff_toNat_lt]
      rcases h with (hlt | hex') | ⟨-, rfl⟩
      · rw [UInt64.lt_iff_toNat_lt] at hlt
        omega
      · simp [hex] at hex'
      · omega

theorem step_emits {c : StreamCounter} {call : Call} {n : UInt64}
    (h : (step c call).2 = some n) : call = .take ∧ c.exhausted = false ∧ n = c.next := by
  cases call with
  | restart => simp [step] at h
  | take =>
    refine ⟨rfl, take_eq_ok.mp ?_⟩
    cases htake : c.take.2 with
    | error e => simp [step, htake, Except.toOption] at h
    | ok m => simpa [step, htake, Except.toOption] using h

theorem nodup_of_steps {c : StreamCounter} {calls : List Call}
    (hkeep : Run.Steps step KeepsAll c calls) : (taken c calls).Nodup := by
  refine Run.nodup_of_remembers Past ?_ ?_ ?_ hkeep
  · intro c call n hcall hpast
    cases call with
    | take => exact past_take (.inl hpast)
    | restart =>
      rcases hpast with hlt | hex
      · exact .inl hlt
      · have : c.exhausted = false := hcall
        simp [hex] at this
  · intro c call n _ hemit hpast
    obtain ⟨rfl, hex, rfl⟩ := step_emits hemit
    rcases hpast with hlt | hex'
    · simp at hlt
    · simp [hex] at hex'
  · intro c call n _ hemit
    obtain ⟨rfl, hex, rfl⟩ := step_emits hemit
    exact past_take (.inr ⟨hex, rfl⟩)

/-- While every restart meets a counter that is not exhausted, the numbers handed out are
pairwise distinct. -/
theorem taken_nodup (next : UInt64) (calls : List Call)
    (hkeep : Run.Steps step KeepsAll (restore next) calls) :
    (taken (restore next) calls).Nodup :=
  nodup_of_steps hkeep

/-- A restart before the last number is handed out, and the counter stops behind it. -/
theorem taken_nodup_to_last :
    (taken (restore (UInt64.last - 1)) [.take, .restart, .take, .take]).Nodup :=
  taken_nodup _ _ ⟨trivial, rfl, trivial, trivial, trivial⟩

/-- The stored number does not say that it was the last one and is handed out already. -/
theorem taken_twice : ¬ (taken (restore UInt64.last) [.take, .restart, .take]).Nodup := by
  decide

/-! ## What a lost restart does -/

/-- No number is taken any more after a restart that met an exhausted counter. -/
def StopsAfterLoss (c : StreamCounter) (calls : List Call) : Prop :=
  ∀ m n, m < n → calls[m]? = some .restart → (Run.stateAt step c calls m).exhausted →
    calls[n]? ≠ some .take

variable {c : StreamCounter} {call : Call} {calls rest : List Call}

theorem taken_cons : taken c (call :: calls) =
    (step c call).2.toList ++ taken (step c call).1 calls := by
  cases h : (step c call).2 <;> simp [taken, h]

theorem taken_append :
    taken c (calls ++ rest) = taken c calls ++ taken (Run.final step c calls) rest := by
  induction calls generalizing c with
  | nil => rfl
  | cons call calls ih =>
    rw [List.cons_append, taken_cons, taken_cons, ih, List.append_assoc]
    rfl

/-- Without takes nothing is handed out. -/
theorem taken_eq_nil (h : .take ∉ calls) : taken c calls = [] := by
  induction calls generalizing c with
  | nil => rfl
  | cons call calls ih =>
    rw [List.mem_cons, not_or] at h
    cases call with
    | take => exact absurd rfl h.1
    | restart =>
      rw [taken_cons, ih h.2]
      rfl

/-- A counter becomes exhausted by handing out the last number, which it keeps as the next one. -/
theorem exhausted_step (hstart : c.exhausted → c.next = UInt64.last)
    (h : (step c call).1.exhausted) : (step c call).1.next = UInt64.last ∧
      (c.exhausted ∨ (step c call).2 = some UInt64.last) := by
  cases call with
  | restart => cases h
  | take =>
    cases hex : c.exhausted with
    | true => exact ⟨by simpa [step, take, hex] using hstart hex, .inl rfl⟩
    | false =>
      cases hadd : c.next.checkedAdd 1 with
      | none =>
        have hlast := UInt64.checkedAdd_one_eq_none.mp hadd
        refine ⟨?_, .inr ?_⟩ <;> simpa [step, take, hex, hadd, Except.toOption] using hlast
      | some following => simp [step, take, hex, hadd] at h

theorem last_of_exhausted (hstart : c.exhausted → c.next = UInt64.last)
    (h : (Run.final step c calls).exhausted) :
    (Run.final step c calls).next = UInt64.last ∧ (c.exhausted ∨ UInt64.last ∈ taken c calls) := by
  induction calls generalizing c with
  | nil => exact ⟨hstart h, .inl h⟩
  | cons call calls ih =>
    obtain ⟨hnext, hlast⟩ := ih (fun hex => (exhausted_step hstart hex).1) h
    refine ⟨hnext, ?_⟩
    rw [taken_cons, List.mem_append]
    obtain hex | hmem := hlast
    · obtain hex | hput := (exhausted_step hstart hex).2
      · exact .inl hex
      · exact .inr (.inl (by simp [hput]))
    · exact .inr (.inr hmem)

/-- From the last number on, the first take hands it out. -/
theorem last_mem_taken (hnext : c.next = UInt64.last) (hex : c.exhausted = false)
    (h : .take ∈ calls) : UInt64.last ∈ taken c calls := by
  induction calls generalizing c with
  | nil => cases h
  | cons call calls ih =>
    rw [taken_cons, List.mem_append]
    cases call with
    | take =>
      have htake : c.take.2 = .ok UInt64.last := take_eq_ok.mpr ⟨hex, hnext.symm⟩
      exact .inl (by simp [step, htake, Except.toOption])
    | restart => exact .inr (ih hnext rfl (by simpa using h))

/-- Up to a restart that loses something, the counter keeps all, and behind it nothing is taken. -/
theorem StopsAfterLoss.exists_steps (h : StopsAfterLoss c calls) :
    ∃ before, Run.Steps step KeepsAll c before ∧ taken c calls = taken c before := by
  induction calls generalizing c with
  | nil => exact ⟨[], trivial, rfl⟩
  | cons call calls ih =>
    by_cases hkeeps : KeepsAll c call
    · have hrest : StopsAfterLoss (step c call).1 calls := fun m n hlt hm hex =>
        h (m + 1) (n + 1) (by omega) hm hex
      obtain ⟨before, hsteps, htaken⟩ := ih hrest
      exact ⟨call :: before, ⟨hkeeps, hsteps⟩, by rw [taken_cons, taken_cons, htaken]⟩
    · cases call with
      | take => exact absurd trivial hkeeps
      | restart =>
        have hex : c.exhausted = true := by simpa [KeepsAll] using hkeeps
        refine ⟨[], trivial, taken_eq_nil fun hmem => ?_⟩
        obtain ⟨n, hn⟩ := List.mem_iff_getElem?.mp hmem
        cases n with
        | zero => cases hn
        | succ n => exact h 0 (n + 1) (by omega) rfl hex hn

/-- The numbers handed out are pairwise distinct exactly if no number is taken after a restart that
met an exhausted counter. -/
theorem taken_nodup_iff (next : UInt64) (calls : List Call) :
    (taken (restore next) calls).Nodup ↔ StopsAfterLoss (restore next) calls := by
  constructor
  · intro hnodup m n hlt hrestart hex htake
    obtain ⟨hm, hcall⟩ := List.getElem?_eq_some_iff.mp hrestart
    have hsplit : calls = calls.take m ++ .restart :: calls.drop (m + 1) := by
      rw [← hcall, ← List.drop_eq_getElem_cons hm, List.take_append_drop]
    have hlater : .take ∈ calls.drop (m + 1) := by
      refine List.mem_of_getElem? (i := n - (m + 1)) ?_
      rw [List.getElem?_drop, show m + 1 + (n - (m + 1)) = n by omega, htake]
    obtain ⟨hnext, hbad | hfirst⟩ := last_of_exhausted (c := restore next) (by simp [restore]) hex
    · cases hbad
    rw [hsplit, taken_append] at hnodup
    have hsecond : UInt64.last ∈ taken (Run.final step (restore next) (calls.take m))
        (.restart :: calls.drop (m + 1)) := by
      rw [taken_cons]
      exact last_mem_taken hnext rfl hlater
    exact (List.nodup_append.mp hnodup).2.2 _ hfirst _ hsecond rfl
  · intro hstops
    obtain ⟨before, hsteps, htaken⟩ := hstops.exists_steps
    exact htaken ▸ nodup_of_steps hsteps

end StreamCounter

end Onestein.Transport
