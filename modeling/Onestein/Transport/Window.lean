import Onestein.Lib.Run
import Onestein.Lib.Word

/-!
# The reordering window

A window remembers the stream numbers it has accepted in 32 bits above a base. Marking a
number slides the window: the bits move down and the base moves up, until the top half and
the lowest place are unseen.

## Main definitions

* `Window.markSeen` — accept a stream number or say why not.
* `Window.LeavesRoom` — a call after which the window still knows that the last number was
  used.

## Main results

* `Window.accepted_nodup` — while calls leave room, no number is accepted twice.
* `Window.accepts_last_of_no_room` — a call that leaves no room forgets the last number.
-/

namespace Onestein.Transport

/-- How many stream numbers a window covers. -/
def windowLen : UInt64 := 32

/-- Why a stream number was not accepted. -/
inductive WindowError where
  | alreadyPassed (streamNumber base : UInt64)
  | outsideWindow (streamNumber limit : UInt64)
  | alreadySeen (streamNumber : UInt64)
  | counterExhausted
  deriving DecidableEq

/-- The stream numbers from `base` to `base + windowLen`, each marked seen or unseen. -/
structure Window where
  base : UInt64
  seen : UInt32
  deriving DecidableEq

namespace Window

/-- A window at the start of a period, with nothing seen: `restore 0 0`. -/
def new : Window := ⟨0, 0⟩

/-- A window from the two numbers the caller stored. -/
def restore (base : UInt64) (seen : UInt32) : Window := ⟨base, seen⟩

/-- The bit position of a stream number, if the window covers it. -/
def offset (w : Window) (streamNumber : UInt64) : Option UInt32 := do
  let offset ← streamNumber.checkedSub w.base
  if offset ≥ windowLen then none
  else if offset.toNat < UInt32.size then some offset.toUInt32 else none

/-- Whether this stream number is inside the window and already seen. -/
def isSeen (w : Window) (streamNumber : UInt64) : Bool :=
  match w.offset streamNumber with
  | none => false
  | some offset => w.seen &&& (1 <<< offset) != 0

/-- One place forward: the lowest number leaves the window. -/
def slide (w : Window) : Window := ⟨w.base.saturatingAdd 1, w.seen >>> 1⟩

theorem seen_slide_lt {w : Window} {mask : UInt32} (h : w.seen &&& mask ≠ 0) :
    w.slide.seen.toNat < w.seen.toNat := by
  have hpos : w.seen.toNat ≠ 0 := by
    intro hzero
    obtain hzero : w.seen = 0 := UInt32.toNat_inj.mp hzero
    simp [hzero] at h
  have hhalf : w.slide.seen.toNat = w.seen.toNat / 2 := by
    show (w.seen >>> 1).toNat = _
    rw [UInt32.toNat_shiftRight]
    exact Nat.shiftRight_eq_div_pow _ 1
  omega

/-- `while self.seen & mask != 0 { self.slide() }` -/
def slideWhile (mask : UInt32) (w : Window) : Window :=
  if _h : w.seen &&& mask ≠ 0 then slideWhile mask w.slide else w
termination_by w.seen.toNat
decreasing_by exact seen_slide_lt _h

/-- The places whose tags have to be unseen for the sender to have room. -/
def topHalf : UInt32 := 0xFFFFFFFF <<< (windowLen / 2).toUInt32

/-- Marks a stream number as seen and slides the window. -/
def markSeen (w : Window) (streamNumber : UInt64) : Window × Except WindowError Unit :=
  if streamNumber < w.base then
    (w, .error (.alreadyPassed streamNumber w.base))
  else
    let limit := w.base.saturatingAdd windowLen
    match w.offset streamNumber with
    | none => (w, .error (.outsideWindow streamNumber limit))
    | some offset =>
      let bit := 1 <<< offset
      if w.seen &&& bit ≠ 0 then
        (w, .error (.alreadySeen streamNumber))
      else
        let w := { w with seen := w.seen ||| bit }
        (slideWhile 1 (slideWhile topHalf w), .ok ())

/-! ## Sliding -/

theorem and_topHalf_eq_zero {s : UInt32} :
    s &&& topHalf = 0 ↔ ∀ i, 16 ≤ i → ¬ s.toNat.testBit i := by
  have htop : ∀ i, i < 32 → topHalf.toNat.testBit i = decide (16 ≤ i) := by decide
  rw [← UInt32.toNat_inj, UInt32.toNat_and, UInt32.toNat_zero]
  constructor
  · intro h i hi hbit
    have hand := congrArg (Nat.testBit · i) h
    simp [Nat.testBit_and, hbit, htop i (UInt32.testBit_lt hbit), hi] at hand
  · intro h
    apply Nat.eq_of_testBit_eq
    intro i
    rw [Nat.testBit_and, Nat.zero_testBit]
    by_cases hbit : s.toNat.testBit i
    · have hi : ¬ 16 ≤ i := fun hi => h i hi hbit
      simp [htop i (UInt32.testBit_lt hbit), hi]
    · simp [hbit]

theorem offset_eq_some {w : Window} {n : UInt64} {o : UInt32} :
    w.offset n = some o ↔ n.toNat = w.base.toNat + o.toNat ∧ o.toNat < 32 := by
  have hlen : windowLen.toNat = 32 := rfl
  have ho := o.toNat_lt
  unfold offset
  cases hsub : n.checkedSub w.base with
  | none =>
    rw [UInt64.checkedSub_eq_none, UInt64.lt_iff_toNat_lt] at hsub
    simp only [Option.bind_eq_bind, Option.bind_none, reduceCtorEq, false_iff]
    omega
  | some distance =>
    rw [UInt64.checkedSub_eq_some] at hsub
    simp only [Option.bind_eq_bind, Option.bind_some, ge_iff_le, UInt64.le_iff_toNat_le, hlen]
    split_ifs with hfar hfit
    · simp only [false_iff]
      omega
    · rw [Option.some.injEq, ← UInt32.toNat_inj, UInt64.toNat_toUInt32]
      omega
    · exact absurd (by simp [UInt32.size]; omega) hfit

theorem isSome_offset {w : Window} {n : UInt64} (hle : w.base.toNat ≤ n.toNat)
    (hlt : n.toNat < w.base.toNat + 32) : (w.offset n).isSome := by
  rw [Option.isSome_iff_exists]
  refine ⟨UInt32.ofNat (n.toNat - w.base.toNat), offset_eq_some.mpr ?_⟩
  rw [UInt32.toNat_ofNat_of_lt' (by simp [UInt32.size]; omega)]
  omega

theorem toNat_base_slides (w : Window) (k : Nat) :
    (slide^[k] w).base.toNat = min (w.base.toNat + k) (2 ^ 64 - 1) := by
  induction k with
  | zero =>
    have := w.base.toNat_lt
    simp only [Function.iterate_zero, id_eq]
    omega
  | succ k ih =>
    rw [Function.iterate_succ_apply', slide, UInt64.toNat_saturatingAdd, ih]
    have : (1 : UInt64).toNat = 1 := rfl
    omega

theorem testBit_slides (w : Window) (k i : Nat) :
    (slide^[k] w).seen.toNat.testBit i = w.seen.toNat.testBit (i + k) := by
  induction k generalizing i with
  | zero => rfl
  | succ k ih =>
    have hshift : (slide (slide^[k] w)).seen.toNat = (slide^[k] w).seen.toNat >>> 1 := by
      rw [slide, UInt32.toNat_shiftRight]
      rfl
    rw [Function.iterate_succ_apply', hshift, Nat.testBit_shiftRight, ih]
    congr 1
    omega

/-- Sliding stops at the first window the mask misses. -/
theorem slideWhile_eq (mask : UInt32) (w : Window) :
    ∃ k, slideWhile mask w = slide^[k] w ∧ (slide^[k] w).seen &&& mask = 0 ∧
      ∀ j : Nat, (slide^[j] w).seen &&& mask = 0 → k ≤ j := by
  fun_induction slideWhile mask w with
  | case1 w h ih =>
    obtain ⟨k, heq, hzero, hleast⟩ := ih
    refine ⟨k + 1, heq, hzero, ?_⟩
    intro j hj
    cases j with
    | zero => exact absurd hj h
    | succ j =>
      have := hleast j hj
      omega
  | case2 w h => exact ⟨0, rfl, not_not.mp h, fun j _ => Nat.zero_le j⟩

/-- After `k` places there is room above and the lowest place is unseen. -/
def Settled (w : Window) (k : Nat) : Prop :=
  (∀ i, k + 16 ≤ i → ¬ w.seen.toNat.testBit i) ∧ ¬ w.seen.toNat.testBit k

/-- The two loops together slide to the least place where the window is settled. -/
theorem slideWhile_slideWhile (w : Window) :
    ∃ k, slideWhile 1 (slideWhile topHalf w) = slide^[k] w ∧ w.Settled k ∧
      ∀ j, w.Settled j → k ≤ j := by
  obtain ⟨k₁, heq₁, htop, hleast₁⟩ := slideWhile_eq topHalf w
  obtain ⟨k₂, heq₂, hlow, hleast₂⟩ := slideWhile_eq 1 (slide^[k₁] w)
  have hadd (j : Nat) : slide^[j] (slide^[k₁] w) = slide^[j + k₁] w :=
    (Function.iterate_add_apply slide j k₁ w).symm
  refine ⟨k₂ + k₁, by rw [heq₁, heq₂, hadd], ⟨?_, ?_⟩, ?_⟩
  · intro i hi
    have := and_topHalf_eq_zero.mp htop (i - k₁) (by omega)
    rwa [testBit_slides, Nat.sub_add_cancel (by omega)] at this
  · rw [hadd, UInt32.and_one_eq_zero, testBit_slides] at hlow
    simpa using hlow
  · rintro j ⟨hroom, hunseen⟩
    have hk₁ : k₁ ≤ j := by
      apply hleast₁
      rw [and_topHalf_eq_zero]
      intro i hi
      rw [testBit_slides]
      exact hroom (i + j) (by omega)
    have hk₂ : k₂ ≤ j - k₁ := by
      apply hleast₂
      rw [hadd, UInt32.and_one_eq_zero, testBit_slides]
      rwa [Nat.sub_add_cancel hk₁, Nat.zero_add]
    omega

/-! ## Marking -/

/-- `m` is marked: the bit at its distance from the base is set. Bits may stand for numbers
beyond the last one, which no call can name. -/
def Marked (w : Window) (m : Nat) : Prop :=
  w.base.toNat ≤ m ∧ w.seen.toNat.testBit (m - w.base.toNat)

theorem isSeen_iff {w : Window} {n : UInt64} : w.isSeen n ↔ w.Marked n.toNat := by
  unfold isSeen Marked
  cases hoff : w.offset n with
  | some o =>
    obtain ⟨hn, ho⟩ := offset_eq_some.mp hoff
    rw [bne_iff_ne, UInt32.and_bit_ne_zero ho, hn, Nat.add_sub_cancel_left]
    simp
  | none =>
    simp only [Bool.false_eq_true, false_iff, not_and]
    intro hbase hbit
    have hlt := UInt32.testBit_lt hbit
    have hsome := offset_eq_some (w := w) (n := n) (o := UInt32.ofNat (n.toNat - w.base.toNat))
    rw [UInt32.toNat_ofNat_of_lt' (by simp [UInt32.size]; omega), hoff] at hsome
    simp only [reduceCtorEq, false_iff] at hsome
    omega

/-- A call either refuses and changes nothing, or marks an unseen number and slides to the
least place where the window is settled. It refuses what is not covered or marked already. -/
theorem markSeen_cases (w : Window) (n : UInt64) :
    (∃ e, w.markSeen n = (w, .error e) ∧ ((w.offset n).isSome → w.Marked n.toNat)) ∨
    ∃ w₁ k, (w.offset n).isSome ∧ ¬ w.Marked n.toNat ∧ w.base ≤ n ∧ w₁.base = w.base ∧
      (∀ m, w₁.Marked m ↔ w.Marked m ∨ m = n.toNat) ∧
      w.markSeen n = (slide^[k] w₁, .ok ()) ∧ w₁.Settled k ∧ ∀ j, w₁.Settled j → k ≤ j := by
  unfold markSeen
  split
  case isTrue hbase =>
    refine .inl ⟨_, rfl, fun hoff => ?_⟩
    obtain ⟨o, ho⟩ := Option.isSome_iff_exists.mp hoff
    rw [UInt64.lt_iff_toNat_lt, (offset_eq_some.mp ho).1] at hbase
    omega
  case isFalse hbase =>
    cases hoff : w.offset n with
    | none => exact .inl ⟨_, rfl, fun h => by simp at h⟩
    | some o =>
      obtain ⟨hn, ho⟩ := offset_eq_some.mp hoff
      have hseen : w.seen &&& (1 <<< o) ≠ 0 ↔ w.Marked n.toNat := by
        rw [UInt32.and_bit_ne_zero ho, Marked, hn, Nat.add_sub_cancel_left]
        simp
      dsimp only
      by_cases hmark : w.Marked n.toNat
      · rw [if_pos (hseen.mpr hmark)]
        exact .inl ⟨_, rfl, fun _ => hmark⟩
      · rw [if_neg (hseen.not.mpr hmark)]
        obtain ⟨k, heq, hsettled, hleast⟩ :=
          slideWhile_slideWhile { w with seen := w.seen ||| 1 <<< o }
        refine .inr ⟨{ w with seen := w.seen ||| 1 <<< o }, k, rfl, hmark, by simpa using hbase,
          rfl, ?_, by rw [heq], hsettled, hleast⟩
        intro m
        simp only [Marked, UInt32.testBit_or_bit ho]
        constructor
        · rintro ⟨hle, hbit | hm⟩
          · exact .inl ⟨hle, hbit⟩
          · exact .inr (by omega)
        · rintro (⟨hle, hbit⟩ | rfl)
          · exact ⟨hle, .inl hbit⟩
          · exact ⟨by omega, .inr (by omega)⟩

/-- Short of the last number, sliding moves the base and keeps every mark above it. -/
theorem marked_slides {w : Window} {k : Nat} (hk : w.base.toNat + k ≤ UInt64.last.toNat)
    (m : Nat) : (slide^[k] w).Marked m ↔ w.base.toNat + k ≤ m ∧ w.Marked m := by
  rw [UInt64.toNat_last] at hk
  rw [Marked, Marked, toNat_base_slides, testBit_slides, Nat.min_eq_left hk]
  constructor
  · rintro ⟨hle, hbit⟩
    rw [show m - (w.base.toNat + k) + k = m - w.base.toNat by omega] at hbit
    exact ⟨hle, by omega, hbit⟩
  · rintro ⟨hle, -, hbit⟩
    refine ⟨hle, ?_⟩
    rwa [show m - (w.base.toNat + k) + k = m - w.base.toNat by omega]

/-! ## Runs -/

/-- What a caller does with a window: offer a number, or store the two numbers and restore
the window from them. -/
inductive Call where
  | markSeen (streamNumber : UInt64)
  | saveRestore
  deriving DecidableEq

/-- One call, with the number it accepted. -/
def step (w : Window) : Call → Window × Option UInt64
  | .markSeen n =>
    match w.markSeen n with
    | (w, .ok ()) => (w, some n)
    | (w, .error _) => (w, none)
  | .saveRestore => (restore w.base w.seen, none)

/-- The numbers a run of calls accepts, in order. -/
def accepted (w : Window) (calls : List Call) : List UInt64 :=
  (Run.outputs step w calls).filterMap id

/-- A number the call would mark, or a number marked before it. -/
def MarkedWith (w : Window) (n : UInt64) (m : Nat) : Prop := w.Marked m ∨ m = n.toNat

/-- The call can be taken in without sliding past the last number: if the last number is then
marked, some unmarked number is left with no mark 16 places or more above it. Calls that are
refused, for a number not covered or seen already, need no room. -/
def LeavesRoom (w : Window) : Call → Prop
  | .markSeen n =>
    (w.offset n).isSome → w.isSeen n = false → w.MarkedWith n UInt64.last.toNat →
      ∃ b, w.base.toNat ≤ b ∧ b ≤ UInt64.last.toNat ∧ ¬ w.MarkedWith n b ∧
        ∀ m, w.MarkedWith n m → m < b + 16
  | .saveRestore => True

/-- The numbers a window will not accept any more. -/
def Past (w : Window) (n : UInt64) : Prop := w.base.toNat ≤ n.toNat → w.Marked n.toNat

/-- A number with no mark 16 places or more above it, and unmarked, is a settled place. -/
theorem settled_of_room {w : Window} {b : Nat} (hbase : w.base.toNat ≤ b) (hb : ¬ w.Marked b)
    (hroom : ∀ m, w.Marked m → m < b + 16) : w.Settled (b - w.base.toNat) := by
  constructor
  · intro i hi hbit
    have := hroom (w.base.toNat + i) ⟨by omega, by rwa [Nat.add_sub_cancel_left]⟩
    omega
  · intro hbit
    exact hb ⟨hbase, hbit⟩

/-- A call that leaves room keeps the past, and adds the number it accepts. -/
theorem past_markSeen {w : Window} {n a : UInt64} (hroom : w.LeavesRoom (.markSeen n))
    (ha : w.Past a ∨ (w.markSeen n).2 = .ok () ∧ a = n) : (w.markSeen n).1.Past a := by
  obtain ⟨e, heq, -⟩ | ⟨w₁, k, hoff, hn, hbase, hbase₁, hmarks, heq, hsettled, hleast⟩ :=
    w.markSeen_cases n
  · rw [heq] at ha ⊢
    simpa using ha
  · have ha' : w₁.Past a := by
      rw [Past, hbase₁, hmarks]
      intro hle
      obtain ha | ⟨-, rfl⟩ := ha
      · exact .inl (ha hle)
      · exact .inr rfl
    rw [heq]
    intro hle
    have hlast : a.toNat ≤ UInt64.last.toNat := UInt64.le_iff_toNat_le.mp (UInt64.le_last a)
    by_cases hk : w₁.base.toNat + k ≤ UInt64.last.toNat
    · rw [marked_slides hk]
      rw [toNat_base_slides] at hle
      rw [UInt64.toNat_last] at hk
      exact ⟨by omega, ha' (by omega)⟩
    · -- the base has saturated: only the last number is still covered, and it must be unmarked
      exfalso
      rw [UInt64.toNat_last] at hk hlast
      rw [toNat_base_slides] at hle
      have hbase' : w₁.base.toNat ≤ a.toNat := by
        have := w₁.base.toNat_lt
        omega
      have heq' : a.toNat = UInt64.last.toNat := by
        rw [UInt64.toNat_last]
        omega
      have hmark := ha' hbase'
      rw [heq', hmarks] at hmark
      have hunseen : w.isSeen n = false := by
        rw [← Bool.not_eq_true, isSeen_iff]
        exact hn
      obtain ⟨b, hbb, hbl, hb, hbroom⟩ := hroom hoff hunseen hmark
      rw [UInt64.toNat_last] at hbl
      have hset : w₁.Settled (b - w₁.base.toNat) := by
        apply settled_of_room (by rwa [hbase₁])
        · rwa [hmarks]
        · intro m hm
          exact hbroom m ((hmarks m).mp hm)
      have := hleast _ hset
      rw [hbase₁] at *
      omega

/-- An accepted number was not in the past. -/
theorem not_past_of_ok {w : Window} {n : UInt64} (h : (w.markSeen n).2 = .ok ()) :
    ¬ w.Past n := by
  obtain ⟨e, heq, -⟩ | ⟨w₁, k, -, hn, hbase, -⟩ := w.markSeen_cases n
  · simp [heq] at h
  · intro hpast
    exact hn (hpast (UInt64.le_iff_toNat_le.mp hbase))

theorem step_emits {w : Window} {call : Call} {a : UInt64} (h : (step w call).2 = some a) :
    call = .markSeen a ∧ (w.markSeen a).2 = .ok () := by
  cases call with
  | saveRestore => simp [step] at h
  | markSeen n =>
    simp only [step] at h
    split at h
    case h_1 heq =>
      obtain rfl : n = a := by simpa using h
      exact ⟨rfl, by rw [heq]⟩
    case h_2 => simp at h

theorem step_fst (w : Window) (n : UInt64) : (step w (.markSeen n)).1 = (w.markSeen n).1 := by
  simp only [step]
  split <;> simp_all

/-- While every call leaves room, no stream number is accepted twice, through any number of
stops and restarts. -/
theorem accepted_nodup (base : UInt64) (seen : UInt32) (calls : List Call)
    (hroom : Run.Steps step LeavesRoom (restore base seen) calls) :
    (accepted (restore base seen) calls).Nodup := by
  refine Run.nodup_of_remembers Past ?_ ?_ ?_ hroom
  · intro w call a hcall ha
    cases call with
    | saveRestore => exact ha
    | markSeen n =>
      rw [step_fst]
      exact past_markSeen hcall (.inl ha)
  · intro w call a _ hemit
    obtain ⟨rfl, hok⟩ := step_emits hemit
    exact not_past_of_ok hok
  · intro w call a hcall hemit
    obtain ⟨rfl, hok⟩ := step_emits hemit
    rw [step_fst]
    exact past_markSeen hcall (.inr ⟨hok, rfl⟩)

/-- Near the end of the range, across a restart, the replay of the last number is refused. -/
theorem accepted_nodup_replay :
    (accepted (restore (UInt64.last - 3) 0)
      [.markSeen UInt64.last, .saveRestore, .markSeen UInt64.last]).Nodup := by
  refine accepted_nodup _ _ _ ⟨fun _ _ _ => ?_, trivial, fun _ hseen => ?_, trivial⟩
  · refine ⟨UInt64.last.toNat - 3, by decide, by decide, ?_, ?_⟩
    · rintro (⟨-, hbit⟩ | h)
      · simp [restore] at hbit
      · simp at h
    · rintro m (⟨-, hbit⟩ | rfl)
      · simp [restore] at hbit
      · simp
  · exact absurd hseen (by decide +kernel)

/-- The saturating base: at the last number the mark moves out of the window and the base
stays, so the number is accepted as often as it is offered. -/
theorem accepted_twice :
    ¬ (accepted (restore UInt64.last 0) [.markSeen UInt64.last, .markSeen UInt64.last]).Nodup := by
  decide +kernel

/-- The condition is exact: a call that leaves no room is accepted, and afterwards the last
number is accepted although it was marked. -/
theorem accepts_last_of_no_room {w : Window} {n : UInt64} (h : ¬ w.LeavesRoom (.markSeen n)) :
    (w.markSeen n).2 = .ok () ∧ w.MarkedWith n UInt64.last.toNat ∧
      ((w.markSeen n).1.markSeen UInt64.last).2 = .ok () := by
  simp only [LeavesRoom, Classical.not_imp] at h
  obtain ⟨hoff, hunseen, hlast, hnone⟩ := h
  rw [← Bool.not_eq_true, isSeen_iff] at hunseen
  obtain ⟨e, -, hmark⟩ | ⟨w₁, k, -, -, -, hbase₁, hmarks, heq, hsettled, -⟩ := w.markSeen_cases n
  · exact absurd (hmark hoff) hunseen
  have hmarks' (m : Nat) : w₁.Marked m ↔ w.MarkedWith n m := hmarks m
  -- a settled place that is still a number would have been room
  have hk : UInt64.last.toNat < w₁.base.toNat + k := by
    by_contra hle
    apply hnone
    refine ⟨w₁.base.toNat + k, by rw [hbase₁]; omega, by omega, ?_, ?_⟩
    · rw [← hmarks']
      rintro ⟨-, hbit⟩
      rw [Nat.add_sub_cancel_left] at hbit
      exact hsettled.2 hbit
    · intro m hm
      obtain ⟨hle, hbit⟩ := (hmarks' m).mpr hm
      by_contra hfar
      exact hsettled.1 _ (by omega) hbit
  rw [UInt64.toNat_last] at hk
  have hbase : (slide^[k] w₁).base = UInt64.last := by
    rw [← UInt64.toNat_inj, toNat_base_slides, UInt64.toNat_last]
    omega
  have hbit : ¬ (slide^[k] w₁).Marked UInt64.last.toNat := by
    rw [Marked, hbase, testBit_slides, Nat.sub_self, Nat.zero_add]
    exact fun h => hsettled.2 h.2
  have hcover : ((slide^[k] w₁).offset UInt64.last).isSome :=
    Option.isSome_iff_exists.mpr ⟨0, offset_eq_some.mpr ⟨by rw [hbase]; rfl, by decide⟩⟩
  refine ⟨by rw [heq], hlast, ?_⟩
  rw [heq]
  obtain ⟨e, -, hmark⟩ | ⟨_, _, -, -, -, -, -, heq', -⟩ := (slide^[k] w₁).markSeen_cases UInt64.last
  · exact absurd (hmark hcover) hbit
  · rw [heq']

end Window

end Onestein.Transport
