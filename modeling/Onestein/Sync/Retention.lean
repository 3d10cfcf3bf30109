import Onestein.Bdf.Dictionary
import Onestein.Lib.Ranking
import Onestein.Lib.Word
import Onestein.Sync.Message

/-!
# What a device keeps, and what it may drop

A policy is advice: how much of a group a device intends to keep. It has one encoding, and what it
allows dropping depends on when this device received what it holds.

## Main definitions

* `Retention` — the three policies.
* `Retention.encode`, `Retention.decode` — a policy as canonical BDF.
* `Retention.droppable` — what a policy allows dropping.
* `Retention.Allows` — whether it allows dropping what is held at a position, by rank or by age.

## Main results

* `Retention.decode_iff_encode` — exactly the encoding of a policy is read as the policy.
* `Retention.droppable_eq` — what may be dropped is what the policy allows, in the order given.
* `Retention.droppable_exact` — and dropping again drops nothing.
-/

namespace Onestein.Sync

open Bdf

/-- How much of a group a device intends to keep. -/
inductive Retention where
  | all
  /-- At least the most recently received messages. -/
  | count (n : UInt32)
  /-- At least what arrived within the last days. -/
  | age (days : UInt32)
  deriving DecidableEq

namespace Retention

/-! ## The encoding -/

def fields : Retention → List (String × Value)
  | .all => [("k", .str "all")]
  | .count n => [("k", .str "count"), ("n", .int n.toInt64)]
  | .age days => [("k", .str "age"), ("n", .int days.toInt64)]

/-- Encodes the policy as canonical BDF. -/
def encode (policy : Retention) : Bytes := toBytes (.dict policy.fields)

def kind (fields : List (String × Value)) : Except Error String :=
  match fields.find? (·.1 == "k") with
  | some (_, .str kind) => .ok kind
  | _ => .error .malformed

def number (fields : List (String × Value)) : Except Error UInt32 :=
  match fields.find? (·.1 == "n") with
  | some (_, .int number) => number.toUInt32?.okOr .malformed
  | _ => .error .malformed

def read (fields : List (String × Value)) : Except Error Retention := do
  let kind ← kind fields
  -- An unexpected key means a policy this version does not understand.
  let expected := if kind = "all" then 1 else 2
  if fields.length ≠ expected then .error .malformed
  else if kind = "all" then .ok .all
  else if kind = "count" then .ok (.count (← number fields))
  else if kind = "age" then .ok (.age (← number fields))
  else .error .malformed

/-- Reads a policy. -/
def decode (bytes : Bytes) : Except Error Retention :=
  match fromBytesCanonical bytes with
  | .ok (.dict fields) => read fields
  | _ => .error .malformed

variable {entries : List (String × Value)} {policy : Retention} {bytes : Bytes}

theorem kind_eq_ok (h : keysSorted entries) {text : String} :
    kind entries = .ok text ↔ ("k", .str text) ∈ entries := by
  rw [← exists_find?_eq_some h, kind]
  cases entries.find? (·.1 == "k") with
  | none => simp
  | some entry =>
    obtain ⟨name, value⟩ := entry
    cases value <;> simp

theorem number_eq_ok (h : keysSorted entries) {n : UInt32} :
    number entries = .ok n ↔ ("n", .int n.toInt64) ∈ entries := by
  rw [← exists_find?_eq_some h, number]
  cases entries.find? (·.1 == "n") with
  | none => simp
  | some entry =>
    obtain ⟨name, value⟩ := entry
    cases value <;> simp [Int64.toUInt32?_eq_some]

/-- The names of the fields, which are in order. -/
def names : Retention → List String
  | .all => ["k"]
  | .count _ | .age _ => ["k", "n"]

theorem map_fst_fields (policy : Retention) : policy.fields.map Prod.fst = policy.names := by
  cases policy <;> rfl

theorem sorted_names (policy : Retention) :
    (policy.names.zip (policy.names.drop 1)).all fun (left, right) =>
      decide (Bytes.utf8 left < Bytes.utf8 right) := by
  cases policy <;> simp only [names] <;> decide

theorem keysSorted_fields (policy : Retention) : keysSorted policy.fields := by
  rw [keysSorted_eq, map_fst_fields]
  exact sorted_names policy

/-- A policy that is read has its entries in the dictionary, and the dictionary has no others. -/
theorem subset_of_read (h : keysSorted entries) (hread : read entries = .ok policy) :
    policy.fields ⊆ entries ∧ entries.length ≤ policy.fields.length := by
  obtain ⟨text, hkind, hread⟩ := Except.bind_eq_ok.mp hread
  obtain ⟨hlen, hread⟩ := Except.ite_error_eq_ok.mp hread
  rw [kind_eq_ok h] at hkind
  rw [not_not] at hlen
  split_ifs at hread with hall hcount hage
  case pos =>
    obtain rfl := Except.ok.inj hread
    subst text
    simp [fields, hkind, hlen]
  all_goals
    obtain ⟨n, hnumber, hread⟩ := Except.bind_eq_ok.mp hread
    obtain rfl := Except.ok.inj hread
    rw [number_eq_ok h] at hnumber
    subst text
    simp [fields, hkind, hnumber, hlen]

theorem read_fields (policy : Retention) : read policy.fields = .ok policy := by
  have hsorted := keysSorted_fields policy
  cases policy with
  | all => rfl
  | count n =>
    have hnumber : number (count n).fields = .ok n :=
      (number_eq_ok hsorted).mpr (by simp [fields])
    calc read (count n).fields = (do .ok (.count (← number (count n).fields))) := rfl
      _ = .ok (.count n) := by rw [hnumber, Except.ok_bind]
  | age days =>
    have hnumber : number (age days).fields = .ok days :=
      (number_eq_ok hsorted).mpr (by simp [fields])
    calc read (age days).fields = (do .ok (.age (← number (age days).fields))) := rfl
      _ = .ok (.age days) := by rw [hnumber, Except.ok_bind]

/-- The entries of a dictionary are a policy exactly if they are those of the policy. -/
theorem read_eq_ok (h : keysSorted entries) :
    read entries = .ok policy ↔ entries = policy.fields := by
  constructor
  · intro hread
    obtain ⟨hsub, hlen⟩ := subset_of_read h hread
    exact eq_of_length_le h (keysSorted_fields policy) hsub hlen
  · rintro rfl
    exact read_fields policy

theorem fromBytesCanonical_encode (policy : Retention) :
    fromBytesCanonical policy.encode = .ok (.dict policy.fields) := by
  apply fromBytesCanonical_toBytes_flat policy.names (map_fst_fields policy) (sorted_names policy)
  · cases policy <;> rfl
  · cases policy <;> simp [fields, FitEntries, Value.Fits] <;> decide

/-- Exactly the encoding of a policy is read as the policy. -/
theorem decode_iff_encode (bytes : Bytes) (policy : Retention) :
    decode bytes = .ok policy ↔ policy.encode = bytes := by
  constructor
  · intro hdecode
    unfold decode at hdecode
    split at hdecode
    case h_1 entries hbytes =>
      obtain ⟨-, hcanonical, rfl⟩ := fromBytesCanonical_eq_ok_iff.mp hbytes
      simp only [Value.isCanonical, Bool.and_eq_true] at hcanonical
      rw [encode, (read_eq_ok hcanonical.1).mp hdecode]
    case h_2 => cases hdecode
  · rintro rfl
    rw [decode, fromBytesCanonical_encode]
    exact (read_eq_ok (keysSorted_fields policy)).mpr rfl

/-! ## What may be dropped -/

/-- Milliseconds in a day. -/
def dayMs : UInt64 := 24 * 60 * 60 * 1000

/-- The positions of what is held, each with the time this device received it. -/
def positions (held : List (MessageId × UInt64)) : List (Nat × UInt64) :=
  held.zipIdx.map fun ((_, received), index) => (index, received)

/-- Newest first. Ties keep the order the caller gave. -/
def order (left right : Nat × UInt64) : Ordering :=
  (compare right.2 left.2).then (compare left.1 right.1)

/-- The positions of the newest. -/
def keep (n : UInt32) (held : List (MessageId × UInt64)) : List Nat :=
  let newestFirst := (positions held).mergeSort fun left right => (order left right).isLE
  (newestFirst.take n.toNat).map fun (index, _) => index

/-- Which messages this policy allows dropping, given what the device holds, each with the time this
device received it. -/
def droppable (policy : Retention) (nowMs : UInt64) (held : List (MessageId × UInt64)) :
    List MessageId :=
  match policy with
  | .all => []
  | .count n =>
    let keep := keep n held
    (held.zipIdx.filter fun (_, index) => !keep.contains index).map fun ((id, _), _) => id
  | .age days =>
    let window := days.toUInt64.saturatingMul dayMs
    -- A receipt time ahead of the clock keeps the message.
    let cutoff := nowMs.saturatingSub window
    (held.filter fun (_, received) => received < cutoff).map fun (id, _) => id

/-! ## Ranks by receipt -/

/-- One position is ahead of another if it was received later, or at the same time and stands
earlier. -/
def Ahead (a b : Nat × UInt64) : Prop := b.2 < a.2 ∨ a.2 = b.2 ∧ a.1 < b.1

instance : DecidableRel Ahead := fun a b => inferInstanceAs (Decidable (b.2 < a.2 ∨ _ ∧ _))

theorem ahead_iff {a b : Nat × UInt64} :
    Ahead a b ↔ b.2.toNat < a.2.toNat ∨ a.2.toNat = b.2.toNat ∧ a.1 < b.1 := by
  rw [Ahead, UInt64.lt_iff_toNat_lt, UInt64.toNat_inj]

instance : IsStrictTotalOrder (Nat × UInt64) Ahead where
  trichotomous a b hab hba := by
    rw [ahead_iff] at hab hba
    exact Prod.ext (by omega) (UInt64.toNat_inj.mp (by omega))
  irrefl a h := by
    rw [ahead_iff] at h
    omega
  trans a b c hab hbc := by
    rw [ahead_iff] at hab hbc ⊢
    omega

theorem order_isLE (a b : Nat × UInt64) : (order a b).isLE ↔ ¬ Ahead b a := by
  rw [order, Ordering.isLE_then_iff_or, Std.compare_eq_lt, Std.compare_eq_eq_iff_eq,
    Std.isLE_compare, ahead_iff, UInt64.lt_iff_toNat_lt, ← UInt64.toNat_inj]
  omega

/-- Whether a policy allows dropping what is held at a position. -/
def Allows (policy : Retention) (nowMs : UInt64) (held : List (MessageId × UInt64))
    (entry : (MessageId × UInt64) × Nat) : Prop :=
  match policy with
  | .all => False
  | .count n => n.toNat ≤ Ranking.rank Ahead (positions held) (entry.2, entry.1.2)
  | .age days => entry.1.2.toNat + days.toNat * (24 * 60 * 60 * 1000) < nowMs.toNat

instance {nowMs : UInt64} {held : List (MessageId × UInt64)} :
    DecidablePred (policy.Allows nowMs held) := fun _ =>
  match policy with
  | .all => inferInstanceAs (Decidable False)
  | .count n => inferInstanceAs (Decidable (n.toNat ≤ _))
  | .age days => inferInstanceAs (Decidable (_ + days.toNat * _ < _))

/-- What is left when everything is dropped that the policy allows. -/
def kept (policy : Retention) (nowMs : UInt64) (held : List (MessageId × UInt64)) :
    List (MessageId × UInt64) :=
  (held.zipIdx.filter (¬ policy.Allows nowMs held ·)).map Prod.fst

variable {n days : UInt32} {nowMs : UInt64} {held : List (MessageId × UInt64)}
  {entry other : (MessageId × UInt64) × Nat}

/-- Where positions do not matter, they can be left out. -/
theorem map_filter_zipIdx (p : MessageId × UInt64 → Bool) :
    (held.zipIdx.filter (p ∘ Prod.fst)).map (fun entry => entry.1.1) =
      (held.filter p).map Prod.fst := by
  calc (held.zipIdx.filter (p ∘ Prod.fst)).map (fun entry => entry.1.1)
      = ((held.zipIdx.filter (p ∘ Prod.fst)).map Prod.fst).map Prod.fst := by
        rw [List.map_map]
        rfl
    _ = (held.filter p).map Prod.fst := by rw [← List.filter_map, List.zipIdx_map_fst]

/-- A position tells what is held there. -/
theorem eq_of_position (h : entry ∈ held.zipIdx) (h' : other ∈ held.zipIdx)
    (heq : entry.2 = other.2) : entry = other :=
  List.inj_on_of_nodup_map (List.nodup_zipIdx_map_snd held) h h' heq

@[simp] theorem length_positions : (positions held).length = held.length := by
  rw [positions, List.length_map, List.length_zipIdx]

theorem nodup_positions (held : List (MessageId × UInt64)) : (positions held).Nodup := by
  apply List.Nodup.of_map Prod.fst
  rw [positions, List.map_map]
  exact List.nodup_zipIdx_map_snd held

/-- The positions that are kept are those whose rank is below the count. -/
theorem mem_keep (h : entry ∈ held.zipIdx) :
    entry.2 ∈ keep n held ↔ ¬ (count n).Allows nowMs held entry := by
  have hrank (position : Nat × UInt64) :=
    Ranking.mem_take_mergeSort_iff (a := position) order_isLE (nodup_positions held) n.toNat
  rw [keep, List.mem_map, Allows, Nat.not_le]
  constructor
  · rintro ⟨position, hposition, hindex⟩
    obtain ⟨hmem, hlt⟩ := (hrank position).mp hposition
    obtain ⟨found, hfound, rfl⟩ := List.mem_map.mp hmem
    rwa [← eq_of_position hfound h hindex]
  · intro hlt
    exact ⟨_, (hrank _).mpr ⟨List.mem_map_of_mem h, hlt⟩, rfl⟩

theorem lt_cutoff_iff {received : UInt64} :
    received < nowMs.saturatingSub (days.toUInt64.saturatingMul dayMs) ↔
      received.toNat + days.toNat * (24 * 60 * 60 * 1000) < nowMs.toNat := by
  have hdays := days.toNat_lt
  have hday : dayMs.toNat = 24 * 60 * 60 * 1000 := rfl
  rw [UInt64.lt_iff_toNat_lt, UInt64.toNat_saturatingSub, UInt64.toNat_saturatingMul,
    UInt32.toNat_toUInt64, hday]
  omega

/-- What may be dropped, in the order it was given. -/
theorem droppable_eq : policy.droppable nowMs held =
    (held.zipIdx.filter (policy.Allows nowMs held ·)).map fun entry => entry.1.1 := by
  cases policy with
  | all =>
    have hnone : held.zipIdx.filter (Retention.all.Allows nowMs held ·) = [] :=
      List.filter_eq_nil_iff.mpr fun _ _ h => of_decide_eq_true h
    rw [hnone]
    rfl
  | count n =>
    have hkeep : held.zipIdx.filter (fun (_, index) => !(keep n held).contains index) =
        held.zipIdx.filter ((count n).Allows nowMs held ·) := by
      refine List.filter_congr fun entry h => Bool.eq_iff_iff.mpr ?_
      rw [Bool.not_eq_true', ← Bool.not_eq_true, List.contains_iff_mem, mem_keep h, not_not,
        decide_eq_true_iff]
    exact congrArg _ hkeep
  | age days =>
    have hcutoff (entry : (MessageId × UInt64) × Nat) :
        decide (entry.1.2 < nowMs.saturatingSub (days.toUInt64.saturatingMul dayMs)) =
          decide ((age days).Allows nowMs held entry) := decide_eq_decide.mpr lt_cutoff_iff
    simp only [← hcutoff]
    exact (map_filter_zipIdx _).symm

/-- A count keeps as many as it says, or all. -/
theorem length_kept_count : ((count n).kept nowMs held).length = min n.toNat held.length := by
  calc ((count n).kept nowMs held).length
      = held.zipIdx.countP (¬ (count n).Allows nowMs held ·) := by
        rw [kept, List.length_map, List.countP_eq_length_filter]
    _ = (positions held).countP (Ranking.rank Ahead (positions held) · < n.toNat) := by
        rw [positions, List.countP_map]
        simp only [Allows, Nat.not_le]
        rfl
    _ = min n.toNat held.length := by
        rw [Ranking.countP_rank_lt (nodup_positions held), length_positions]

/-- Dropping again drops nothing. -/
theorem droppable_kept : policy.droppable nowMs (policy.kept nowMs held) = [] := by
  rw [droppable_eq, List.map_eq_nil_iff, List.filter_eq_nil_iff]
  intro entry hentry hallows
  rw [decide_eq_true_iff] at hallows
  cases policy with
  | all => exact hallows
  | count n =>
    have hrank : Ranking.rank Ahead (positions ((count n).kept nowMs held))
        (entry.2, entry.1.2) < (positions ((count n).kept nowMs held)).length :=
      Ranking.rank_lt_length (List.mem_map_of_mem hentry)
    rw [length_positions, length_kept_count] at hrank
    have hle : n.toNat ≤ _ := hallows
    omega
  | age days =>
    obtain ⟨before, hbefore, heq⟩ := List.mem_map.mp (List.fst_mem_of_mem_zipIdx hentry)
    have hnot : ¬ (age days).Allows nowMs held before :=
      of_decide_eq_true (List.mem_filter.mp hbefore).2
    rw [Allows, heq] at hnot
    exact hnot hallows

/-! ## The order of what is held -/

/-- With distinct times of receipt, a time tells the position. -/
theorem eq_of_received (h : (held.map Prod.snd).Nodup) (hentry : entry ∈ held.zipIdx)
    (hother : other ∈ held.zipIdx) (heq : entry.1.2 = other.1.2) : entry = other := by
  have hmap : held.zipIdx.map (fun entry => entry.1.2) = held.map Prod.snd := by
    conv_rhs => rw [← List.zipIdx_map_fst 0 held, List.map_map]
    rfl
  rw [← hmap] at h
  exact List.inj_on_of_nodup_map h hentry hother heq

/-- With distinct times of receipt, the rank counts what was received later. -/
theorem rank_of_nodup (h : (held.map Prod.snd).Nodup) (hentry : entry ∈ held.zipIdx) :
    Ranking.rank Ahead (positions held) (entry.2, entry.1.2) =
      held.countP (entry.1.2 < ·.2) := by
  have hahead : ∀ other ∈ held.zipIdx,
      Ahead (other.2, other.1.2) (entry.2, entry.1.2) ↔ entry.1.2 < other.1.2 := by
    intro other hother
    refine or_iff_left fun ⟨hsame, hlt⟩ => ?_
    obtain rfl := eq_of_received h hother hentry hsame
    exact Nat.lt_irrefl _ hlt
  calc Ranking.rank Ahead (positions held) (entry.2, entry.1.2)
      = held.zipIdx.countP fun other => Ahead (other.2, other.1.2) (entry.2, entry.1.2) := by
        rw [Ranking.rank, positions, List.countP_map]
        rfl
    _ = held.zipIdx.countP ((fun other => decide (entry.1.2 < other.2)) ∘ Prod.fst) :=
        List.countP_congr fun other hother => by simpa using hahead other hother
    _ = held.countP (entry.1.2 < ·.2) := by rw [← List.countP_map, List.zipIdx_map_fst]

/-- With distinct times of receipt, a count drops what enough was received after. -/
theorem droppable_count_of_nodup (h : (held.map Prod.snd).Nodup) :
    (count n).droppable nowMs held =
      (held.filter fun entry => n.toNat ≤ held.countP (entry.2 < ·.2)).map Prod.fst := by
  have hallows : held.zipIdx.filter ((count n).Allows nowMs held ·) =
      held.zipIdx.filter ((fun entry => decide (n.toNat ≤ held.countP (entry.2 < ·.2))) ∘
        Prod.fst) := by
    refine List.filter_congr fun entry hentry => ?_
    rw [Function.comp_apply, ← rank_of_nodup h hentry]
    rfl
  rw [droppable_eq, hallows, map_filter_zipIdx]

/-- With distinct times of receipt, the order of what is held does not matter. -/
theorem droppable_perm {held' : List (MessageId × UInt64)} (hperm : held'.Perm held)
    (h : (held.map Prod.snd).Nodup) :
    (policy.droppable nowMs held').Perm (policy.droppable nowMs held) := by
  cases policy with
  | all => exact .refl _
  | count n =>
    have h' : (held'.map Prod.snd).Nodup := (hperm.map Prod.snd).nodup_iff.mpr h
    rw [droppable_count_of_nodup h, droppable_count_of_nodup h']
    simp only [hperm.countP_eq]
    exact (hperm.filter _).map _
  | age days => exact (hperm.filter _).map _

/-- What may be dropped is exactly what the policy says, in the order it was given: for a count all
but the first in the order of receipt, for an age what arrived before its days began. Dropping
again drops nothing, and with distinct times of receipt the order of what is held does not
matter. -/
theorem droppable_exact (policy : Retention) (nowMs : UInt64) (held : List (MessageId × UInt64)) :
    policy.droppable nowMs held =
        (held.zipIdx.filter (policy.Allows nowMs held ·)).map (fun entry => entry.1.1) ∧
      (∀ n, ((count n).kept nowMs held).length = min n.toNat held.length) ∧
      policy.droppable nowMs (policy.kept nowMs held) = [] ∧
      ∀ held', held'.Perm held → (held.map Prod.snd).Nodup →
        (policy.droppable nowMs held').Perm (policy.droppable nowMs held) :=
  ⟨droppable_eq, fun _ => length_kept_count, droppable_kept, fun _ => droppable_perm⟩

end Retention

end Onestein.Sync
