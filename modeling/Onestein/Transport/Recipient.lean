import Mathlib.Data.List.AList
import Onestein.Transport.Reference
import Onestein.Transport.Expected

/-!
# Recognising streams by their tags

A recipient keeps a window for every peer, transport and period. It looks an arriving tag up among
those that its windows list, and marks the number that it finds. How it looks tags up is its own
affair. Windows that are driven in this way never mark the last number, which none of them lists, so
none of them forgets a number.

## Main definitions

* `Recipient` — the windows, by the tag key of what comes in.
* `Recipient.listed` — all the tags that its windows list.
* `Recipient.Finds` — what a lookup has to do.
* `Recipient.step` — a window is opened, closed or restored, or a tag arrives.

## Main results

* `Recipient.finds_firstListed` — to go through the lists is such a lookup.
* `Recipient.sound_stateAt` — no window ever marks the last number.
* `Recipient.no_replay` — no stream is recognised twice.
* `Recipient.each_once` — if none is overtaken by far, each is recognised when it arrives first.
-/

namespace Onestein.Transport

open Crypto

/-! ## Marking what is listed -/

namespace Window

variable {w : Window} {n : UInt64}

/-- Where the last number is not marked, every other one leaves room. -/
theorem leavesRoom_of_ne_last (hunmarked : ¬ w.Marked UInt64.last.toNat) (hn : n ≠ UInt64.last) :
    w.LeavesRoom (.markSeen n) := by
  rintro - - (hmarked | hlast)
  · exact absurd hmarked hunmarked
  · exact absurd (UInt64.toNat_inj.mp hlast).symm hn

/-- The last number is not marked with another one, not even when the base reaches it. -/
theorem not_marked_last_markSeen (hunmarked : ¬ w.Marked UInt64.last.toNat)
    (hn : n ≠ UInt64.last) : ¬ (w.markSeen n).1.Marked UInt64.last.toNat := by
  obtain ⟨e, heq, -⟩ | ⟨w₁, k, -, -, -, -, hmarks, heq, hsettled, -⟩ := w.markSeen_cases n
  · rwa [heq]
  · rw [heq]
    intro hmarked
    by_cases hk : w₁.base.toNat + k ≤ UInt64.last.toNat
    · obtain hbefore | hlast := (hmarks _).mp ((marked_slides hk _).mp hmarked).2
      · exact hunmarked hbefore
      · exact hn (UInt64.toNat_inj.mp hlast).symm
    · -- the base is the last number, and its place is the one that sliding stopped at
      obtain ⟨-, hbit⟩ := hmarked
      have hbase : (slide^[k] w₁).base.toNat = UInt64.last.toNat := by
        rw [UInt64.toNat_last] at hk ⊢
        rw [toNat_base_slides]
        omega
      rw [hbase, Nat.sub_self, testBit_slides, Nat.zero_add] at hbit
      exact hsettled.2 hbit

theorem not_marked_new (m : Nat) : ¬ new.Marked m := by
  rintro ⟨-, hbit⟩
  simp [new] at hbit

theorem recognises_of_ok (h : (w.markSeen n).2 = .ok ()) : w.recognises n := by
  rw [recognises, h]

/-- A window that holds what a receiver remembers accepts a new number that nothing overtook by far,
and that is not itself far ahead. -/
theorem Small.accepts {memory : Reordering} (h : w.Small memory) (hnew : n.toNat ∉ memory.accepted)
    (hlow : ∀ a ∈ memory.accepted, a < n.toNat + 16)
    (hhigh : n.toNat < 32 ∨ ∃ a ∈ memory.accepted, n.toNat ≤ a + 16) :
    (w.markSeen n).2 = .ok () := by
  rw [(holds_markSeen h.holds h.farFromLast n).2, reference]
  dsimp only
  rw [Reordering.offer_of_tight (by decide) h.tight hnew hlow hhigh]
  rfl

end Window

/-! ## Recipients -/

/-- The windows of a recipient, by the tag key of what comes in. -/
abbrev Recipient := AList fun _ : Digest => Window

/-- A stream is known by the tag key and its number. -/
abbrev StreamId := Digest × UInt64

namespace Recipient

/-- What happens to a recipient: a window with nothing seen is opened, a window is closed, a window
is restored from the two numbers that were stored, or a tag arrives. -/
inductive Call where
  | watch (tagKey : Digest)
  | forget (tagKey : Digest)
  | restore (tagKey : Digest)
  | arrive (tag : Octets tagLen)

/-- No window is opened again. -/
def WatchesOnce (calls : List Call) : Prop :=
  calls.Pairwise fun earlier later => ∀ tagKey, earlier = .watch tagKey → later ≠ .watch tagKey

section Recognising

variable [Blake2b]

/-- The tags that the windows list, with the streams they belong to. -/
def listed (r : Recipient) : List (StreamId × Octets tagLen) :=
  r.entries.flatMap fun entry =>
    (entry.2.expected entry.1).map fun pair => ((entry.1, pair.1), pair.2)

/-- A lookup finds what is listed. -/
structure Finds (find : Recipient → Octets tagLen → Option StreamId) : Prop where
  mem_listed : ∀ {r t stream}, find r t = some stream → (stream, t) ∈ r.listed
  isSome : ∀ {r t stream}, (stream, t) ∈ r.listed → (find r t).isSome

/-- The first stream in the lists that has the tag. -/
def firstListed (r : Recipient) (t : Octets tagLen) : Option StreamId :=
  (r.listed.find? (·.2 = t)).map Prod.fst

/-- The window of the stream marks its number, if it does. -/
def mark (r : Recipient) (stream : StreamId) : Recipient × Option StreamId :=
  match r.lookup stream.1 with
  | none => (r, none)
  | some w =>
    match w.markSeen stream.2 with
    | (w, .ok ()) => (r.insert stream.1 w, some stream)
    | (_, .error _) => (r, none)

/-- One thing that happens, with the stream that is recognised. -/
def step (find : Recipient → Octets tagLen → Option StreamId) (r : Recipient) :
    Call → Recipient × Option StreamId
  | .watch tagKey => (r.insert tagKey .new, none)
  | .forget tagKey => (r.erase tagKey, none)
  | .restore tagKey =>
    match r.lookup tagKey with
    | none => (r, none)
    | some w => (r.insert tagKey (.restore w.base w.seen), none)
  | .arrive t =>
    match find r t with
    | none => (r, none)
    | some stream => r.mark stream

/-- No window has marked the last number. -/
def Sound (r : Recipient) : Prop :=
  ∀ tagKey w, r.lookup tagKey = some w → ¬ w.Marked UInt64.last.toNat

variable {find : Recipient → Octets tagLen → Option StreamId} {r : Recipient} {call : Call}
  {calls : List Call} {t : Octets tagLen} {stream : StreamId} {w : Window} {tagKey : Digest}
  {number : UInt64} {m n : Nat}

/-! ## Looking up -/

theorem mem_listed_iff : (stream, t) ∈ r.listed ↔
    ∃ w, r.lookup stream.1 = some w ∧ (stream.2, t) ∈ w.expected stream.1 := by
  simp only [listed, List.mem_flatMap, List.mem_map]
  constructor
  · rintro ⟨⟨tagKey, w⟩, hentry, ⟨number, t⟩, hmem, heq⟩
    obtain ⟨rfl, rfl⟩ := Prod.mk.inj heq
    exact ⟨w, AList.mem_lookup_iff.mpr hentry, hmem⟩
  · rintro ⟨w, hw, hmem⟩
    exact ⟨⟨stream.1, w⟩, AList.mem_lookup_iff.mp hw, (stream.2, t), hmem, rfl⟩

theorem finds_firstListed : Finds firstListed where
  mem_listed h := by
    obtain ⟨listed, hfind, rfl⟩ := Option.map_eq_some_iff.mp h
    have htag := List.find?_some hfind
    obtain rfl := of_decide_eq_true htag
    exact List.mem_of_find?_eq_some hfind
  isSome hmem := by
    rw [firstListed, Option.isSome_map, List.find?_isSome]
    exact ⟨_, hmem, by simp⟩

/-! ## One call -/

section Steps

omit [Blake2b]

theorem mark_of_ok (hw : r.lookup stream.1 = some w) (hok : (w.markSeen stream.2).2 = .ok ()) :
    r.mark stream = (r.insert stream.1 (w.markSeen stream.2).1, some stream) := by
  rw [mark, hw]
  dsimp only
  cases hmark : w.markSeen stream.2 with
  | mk after answer =>
    rw [hmark] at hok
    obtain rfl : answer = .ok () := hok
    rfl

/-- A stream is marked by its window, or nothing happens. -/
theorem mark_cases (r : Recipient) (stream : StreamId) :
    r.mark stream = (r, none) ∨
    ∃ w, r.lookup stream.1 = some w ∧ (w.markSeen stream.2).2 = .ok () ∧
      r.mark stream = (r.insert stream.1 (w.markSeen stream.2).1, some stream) := by
  cases hw : r.lookup stream.1 with
  | none => exact .inl (by rw [mark, hw])
  | some w =>
    cases hanswer : (w.markSeen stream.2).2 with
    | ok => exact .inr ⟨w, rfl, hanswer, mark_of_ok hw hanswer⟩
    | error e =>
      refine .inl ?_
      rw [mark, hw]
      dsimp only
      cases hmark : w.markSeen stream.2 with
      | mk after answer =>
        rw [hmark] at hanswer
        obtain rfl : answer = .error e := hanswer
        rfl

theorem step_arrive (hfind : find r t = some stream) (hw : r.lookup stream.1 = some w)
    (hok : (w.markSeen stream.2).2 = .ok ()) :
    step find r (.arrive t) = (r.insert stream.1 (w.markSeen stream.2).1, some stream) := by
  rw [← mark_of_ok hw hok, step, hfind]

/-- A stream is recognised only if its tag arrives, is found, and is marked by the window. -/
theorem step_eq_some (h : (step find r call).2 = some stream) :
    ∃ t w, call = .arrive t ∧ find r t = some stream ∧ r.lookup stream.1 = some w ∧
      (w.markSeen stream.2).2 = .ok () ∧
      (step find r call).1 = r.insert stream.1 (w.markSeen stream.2).1 := by
  cases call with
  | watch tagKey => cases h
  | forget tagKey => cases h
  | restore tagKey => cases hw : r.lookup tagKey <;> simp [step, hw] at h
  | arrive t =>
    cases hfind : find r t with
    | none => simp [step, hfind] at h
    | some found =>
      have hstep : step find r (.arrive t) = r.mark found := by simp only [step, hfind]
      rw [hstep] at h ⊢
      obtain hnone | ⟨w, hw, hok, hmark⟩ := r.mark_cases found
      · simp [hnone] at h
      · rw [hmark] at h ⊢
        obtain rfl := Option.some.inj h
        exact ⟨t, w, rfl, hfind, hw, hok, rfl⟩

/-- A window is opened or closed, is left alone, or marks a number that was found. -/
theorem lookup_step_cases (find : Recipient → Octets tagLen → Option StreamId) (r : Recipient)
    (call : Call) (tagKey : Digest) :
    call = .watch tagKey ∨ call = .forget tagKey ∨
    ((step find r call).1.lookup tagKey = r.lookup tagKey ∧
      ∀ number, (step find r call).2 ≠ some (tagKey, number)) ∨
    ∃ t number w, call = .arrive t ∧ find r t = some (tagKey, number) ∧
      r.lookup tagKey = some w ∧ (w.markSeen number).2 = .ok () ∧
      (step find r call).1.lookup tagKey = some (w.markSeen number).1 ∧
      (step find r call).2 = some (tagKey, number) := by
  cases call with
  | watch other =>
    by_cases hkey : tagKey = other
    · exact .inl (hkey ▸ rfl)
    · exact .inr (.inr (.inl ⟨AList.lookup_insert_ne hkey, fun number => nofun⟩))
  | forget other =>
    by_cases hkey : tagKey = other
    · exact .inr (.inl (hkey ▸ rfl))
    · exact .inr (.inr (.inl ⟨AList.lookup_erase_ne hkey, fun number => nofun⟩))
  | restore other =>
    refine .inr (.inr (.inl ?_))
    cases hw : r.lookup other with
    | none => exact ⟨by simp only [step, hw], fun number => by simp [step, hw]⟩
    | some w =>
      simp only [step, hw]
      refine ⟨?_, fun number => nofun⟩
      by_cases hkey : tagKey = other
      · subst hkey
        exact (AList.lookup_insert r).trans hw.symm
      · exact AList.lookup_insert_ne hkey
  | arrive t =>
    refine .inr (.inr ?_)
    cases hfind : find r t with
    | none => exact .inl ⟨by simp only [step, hfind], fun number => by simp [step, hfind]⟩
    | some stream =>
      simp only [step, hfind]
      obtain hnone | ⟨w, hw, hok, hmark⟩ := r.mark_cases stream
      · rw [hnone]
        exact .inl ⟨rfl, fun number => nofun⟩
      · rw [hmark]
        by_cases hkey : tagKey = stream.1
        · subst hkey
          exact .inr ⟨t, stream.2, w, rfl, hfind, hw, hok, AList.lookup_insert r, rfl⟩
        · refine .inl ⟨AList.lookup_insert_ne hkey, fun number h => ?_⟩
          obtain rfl := Option.some.inj h
          exact hkey rfl

/-- A window is new, is as it was before, or has marked a number that was found. -/
theorem lookup_step (h : (step find r call).1.lookup tagKey = some w) :
    call = .watch tagKey ∧ w = .new ∨ r.lookup tagKey = some w ∨
    ∃ t number before, call = .arrive t ∧ find r t = some (tagKey, number) ∧
      r.lookup tagKey = some before ∧ (before.markSeen number).2 = .ok () ∧
      w = (before.markSeen number).1 := by
  obtain rfl | rfl | ⟨hsame, -⟩ | ⟨t, number, before, hcall, hfind, hbefore, hok, hafter, -⟩ :=
    lookup_step_cases find r call tagKey
  · exact .inl ⟨rfl, (Option.some.inj ((AList.lookup_insert r).symm.trans h)).symm⟩
  · simp [step] at h
  · exact .inr (.inl (hsame.symm.trans h))
  · exact .inr (.inr ⟨t, number, before, hcall, hfind, hbefore, hok,
      Option.some.inj (h.symm.trans hafter)⟩)

end Steps

/-! ## No stream twice -/

theorem Finds.listed (hfinds : Finds find) (h : find r t = some stream) :
    stream.2 ≠ UInt64.last ∧ t = tag stream.1 stream.2 := by
  obtain ⟨w, -, hmem⟩ := mem_listed_iff.mp (hfinds.mem_listed h)
  exact (Window.mem_expected.mp hmem).2

theorem sound_step (hfinds : Finds find) (hr : r.Sound) (call : Call) :
    (step find r call).1.Sound := by
  intro tagKey w hw
  obtain ⟨-, rfl⟩ | hbefore | ⟨t, number, before, rfl, hfind, hbefore, -, rfl⟩ := lookup_step hw
  · exact Window.not_marked_new _
  · exact hr tagKey w hbefore
  · exact Window.not_marked_last_markSeen (hr _ _ hbefore) (hfinds.listed hfind).1

omit [Blake2b] in
theorem sound_empty : Sound ∅ := by
  intro tagKey w hw
  simp at hw

/-- However a recipient is used, none of its windows marks the last number. -/
theorem sound_stateAt (hfinds : Finds find) (hr : r.Sound) (calls : List Call) (n : Nat) :
    (Run.stateAt (step find) r calls n).Sound := by
  have hstep (r : Recipient) (call : Call) (hr : r.Sound) : (step find r call).1.Sound :=
    sound_step hfinds hr call
  exact Run.invariant hstep hr (calls.take n)

/-- No window that there is for the stream will accept its number. -/
def Past (r : Recipient) (stream : StreamId) : Prop :=
  ∀ w, r.lookup stream.1 = some w → w.Past stream.2

theorem past_step (hfinds : Finds find) (hr : r.Sound) (hpast : r.Past stream)
    (hcall : call ≠ .watch stream.1) : (step find r call).1.Past stream := by
  intro w hw
  obtain ⟨hwatch, -⟩ | hbefore | ⟨t, number, before, rfl, hfind, hbefore, -, rfl⟩ := lookup_step hw
  · exact absurd hwatch hcall
  · exact hpast w hbefore
  · have hroom := Window.leavesRoom_of_ne_last (hr _ _ hbefore) (hfinds.listed hfind).1
    exact Window.past_markSeen hroom (.inl (hpast before hbefore))

theorem past_of_recognised (hfinds : Finds find) (hr : r.Sound)
    (h : (step find r call).2 = some stream) : (step find r call).1.Past stream := by
  obtain ⟨t, w, -, hfind, hbefore, hok, hstep⟩ := step_eq_some h
  intro after hafter
  rw [hstep, AList.lookup_insert] at hafter
  obtain rfl := Option.some.inj hafter
  have hroom := Window.leavesRoom_of_ne_last (hr _ _ hbefore) (hfinds.listed hfind).1
  exact Window.past_markSeen hroom (.inr ⟨hok, rfl⟩)

/-- What was recognised stays in the past, as long as its window is not opened again. -/
theorem past_stateAt (hfinds : Finds find) (hr : r.Sound)
    (h : (Run.outputs (step find) r calls)[m]? = some (some stream)) (hmn : m < n)
    (hkeep : ∀ i, m < i → calls[i]? ≠ some (.watch stream.1)) :
    (Run.stateAt (step find) r calls n).Past stream := by
  obtain ⟨call, hcall, h⟩ := Run.exists_of_outputs h
  induction n, hmn using Nat.le_induction with
  | base =>
    rw [Run.stateAt_succ hcall]
    exact past_of_recognised hfinds (sound_stateAt hfinds hr calls m) h
  | succ n hmn ih =>
    cases hnext : calls[n]? with
    | none => rwa [Run.stateAt_succ_of_none hnext]
    | some call =>
      rw [Run.stateAt_succ hnext]
      refine past_step hfinds (sound_stateAt hfinds hr calls n) ih ?_
      rintro rfl
      exact hkeep n hmn hnext

/-- So it is not recognised once more. -/
theorem eq_of_recognised (hfinds : Finds find) (hr : r.Sound)
    (hm : (Run.outputs (step find) r calls)[m]? = some (some stream))
    (hn : (Run.outputs (step find) r calls)[n]? = some (some stream))
    (hkeep : ∀ i, min m n < i → calls[i]? ≠ some (.watch stream.1)) : m = n := by
  have hlater {m n : Nat} (hm : (Run.outputs (step find) r calls)[m]? = some (some stream))
      (hn : (Run.outputs (step find) r calls)[n]? = some (some stream))
      (hkeep : ∀ i, m < i → calls[i]? ≠ some (.watch stream.1)) : ¬ m < n := by
    intro hmn
    obtain ⟨call, -, hstep⟩ := Run.exists_of_outputs hn
    obtain ⟨t, w, -, -, hw, hok, -⟩ := step_eq_some hstep
    exact Window.not_past_of_ok hok (past_stateAt hfinds hr hm hmn hkeep w hw)
  obtain hmn | rfl | hnm := Nat.lt_trichotomy m n
  · exact absurd hmn (hlater hm hn fun i hi => hkeep i (by omega))
  · rfl
  · exact absurd hnm (hlater hn hm fun i hi => hkeep i (by omega))

omit [Blake2b] in
/-- Where there is a window, it was opened. -/
theorem exists_watch (h : (Run.stateAt (step find) ∅ calls n).lookup tagKey = some w) :
    ∃ m < n, calls[m]? = some (.watch tagKey) := by
  induction n generalizing w with
  | zero => simp at h
  | succ n ih =>
    have hearlier {w : Window} (hw : (Run.stateAt (step find) ∅ calls n).lookup tagKey = some w) :
        ∃ m < n + 1, calls[m]? = some (.watch tagKey) := by
      obtain ⟨m, hm, hwatch⟩ := ih hw
      exact ⟨m, Nat.lt_succ_of_lt hm, hwatch⟩
    cases hcall : calls[n]? with
    | none =>
      rw [Run.stateAt_succ_of_none hcall] at h
      exact hearlier h
    | some call =>
      rw [Run.stateAt_succ hcall] at h
      obtain ⟨rfl, -⟩ | hbefore | ⟨-, -, before, -, -, hbefore, -⟩ := lookup_step h
      · exact ⟨n, Nat.lt_succ_self n, hcall⟩
      · exact hearlier hbefore
      · exact hearlier hbefore

omit [Blake2b] in
/-- After a stream was recognised its window is not opened. -/
theorem not_watch_of_recognised (honce : WatchesOnce calls)
    (h : (Run.outputs (step find) ∅ calls)[m]? = some (some stream)) (hmn : m < n) :
    calls[n]? ≠ some (.watch stream.1) := by
  obtain ⟨call, -, hstep⟩ := Run.exists_of_outputs h
  obtain ⟨t, w, -, -, hw, -⟩ := step_eq_some hstep
  obtain ⟨opened, hopened, hwatch⟩ := exists_watch hw
  obtain ⟨hlt, hget⟩ := List.getElem?_eq_some_iff.mp hwatch
  intro hagain
  obtain ⟨hlt', hget'⟩ := List.getElem?_eq_some_iff.mp hagain
  exact List.pairwise_iff_getElem.mp honce opened n hlt hlt' (by omega) _ hget hget'

/-- What is recognised is listed. -/
theorem arrive_of_recognised (hfinds : Finds find)
    (h : (Run.outputs (step find) r calls)[n]? = some (some stream)) :
    stream.2 ≠ UInt64.last ∧ calls[n]? = some (.arrive (tag stream.1 stream.2)) := by
  obtain ⟨call, hget, hstep⟩ := Run.exists_of_outputs h
  obtain ⟨t, w, rfl, hfind, -⟩ := step_eq_some hstep
  obtain ⟨hne, rfl⟩ := hfinds.listed hfind
  exact ⟨hne, hget⟩

/-- A recipient recognises no stream twice, in any run in which windows are opened, closed and
restored and any tags arrive, if no window is opened again. What it recognises has the tag that
arrived, and is not the last number. So where the tags of what was recognised are different, no tag
that was recognised is recognised again. -/
theorem no_replay (find : Recipient → Octets tagLen → Option StreamId) (hfinds : Finds find)
    (calls : List Call) (honce : WatchesOnce calls) :
    let said := Run.outputs (step find) ∅ calls
    (∀ (m n : Nat) (stream : StreamId), said[m]? = some (some stream) →
      said[n]? = some (some stream) → m = n) ∧
    (∀ (n : Nat) (stream : StreamId), said[n]? = some (some stream) →
      stream.2 ≠ UInt64.last ∧ calls[n]? = some (.arrive (tag stream.1 stream.2))) ∧
    (Set.InjOn (fun stream : StreamId => tag stream.1 stream.2) {stream | some stream ∈ said} →
      ∀ (m n : Nat) (stream stream' : StreamId), said[m]? = some (some stream) →
        said[n]? = some (some stream') → calls[m]? = calls[n]? → m = n) := by
  intro said
  have hunique (m n : Nat) (stream : StreamId) (hm : said[m]? = some (some stream))
      (hn : said[n]? = some (some stream)) : m = n := by
    refine eq_of_recognised hfinds sound_empty hm hn fun i hi => ?_
    obtain hle | hle := Nat.le_total m n
    · exact not_watch_of_recognised honce hm (by omega)
    · exact not_watch_of_recognised honce hn (by omega)
  have hlisted (n : Nat) (stream : StreamId) (hn : said[n]? = some (some stream)) :=
    arrive_of_recognised hfinds hn
  refine ⟨hunique, hlisted, fun hinj m n stream stream' hm hn hsame => ?_⟩
  rw [(hlisted m stream hm).2, (hlisted n stream' hn).2, Option.some.injEq,
    Call.arrive.injEq] at hsame
  obtain rfl := hinj (List.mem_of_getElem? hm) (List.mem_of_getElem? hn) hsame
  exact hunique m n stream hm hn

/-! ## Every stream once -/

/-- The window of the key is neither opened nor closed. A tag that arrives is that of one listed
stream at most, and under the key only of one that was sent. -/
def Clear (tagKey : Digest) (sent : Nat) (r : Recipient) (call : Call) : Prop :=
  call ≠ .watch tagKey ∧ call ≠ .forget tagKey ∧
  ∀ t, call = .arrive t →
    (∀ stream stream', (stream, t) ∈ r.listed → (stream', t) ∈ r.listed → stream = stream') ∧
    ∀ number, ((tagKey, number), t) ∈ r.listed → number.toNat < sent

/-- No stream arrives before one that was sent 16 or more before it. -/
def InReach (tagKey : Digest) (sent : Nat) (calls : List Call) : Prop :=
  ∀ (i : Nat) (m n : UInt64), n.toNat < sent → calls[i]? = some (.arrive (tag tagKey n)) →
    m.toNat + 16 ≤ n.toNat → ∃ j < i, calls[j]? = some (.arrive (tag tagKey m))

section Delivery

variable {sent i : Nat} (hfinds : Finds find) (hsent : sent ≤ 2 ^ 63)
  (hnew : r.lookup tagKey = some .new) (hclear : Run.Steps (step find) (Clear tagKey sent) r calls)

include hfinds hclear in
theorem lt_sent_of_recognised
    (h : (Run.outputs (step find) r calls)[i]? = some (some (tagKey, number))) :
    number.toNat < sent := by
  obtain ⟨call, hcall, hstep⟩ := Run.exists_of_outputs h
  obtain ⟨t, w, rfl, hfind, -⟩ := step_eq_some hstep
  exact ((hclear.getElem? hcall).2.2 t rfl).2 number (hfinds.mem_listed hfind)

include hfinds hsent hnew hclear in
/-- The window holds what a receiver remembers that accepted what was recognised. -/
theorem small_stateAt (i : Nat) : ∃ w memory,
    (Run.stateAt (step find) r calls i).lookup tagKey = some w ∧ w.Small memory ∧
    ∀ n : UInt64, n.toNat ∈ memory.accepted ↔
      ∃ j < i, (Run.outputs (step find) r calls)[j]? = some (some (tagKey, n)) := by
  induction i with
  | zero => exact ⟨.new, .start, hnew, Window.small_new, fun n => by simp [Reordering.start]⟩
  | succ i ih =>
    obtain ⟨w, memory, hw, hsmall, haccepted⟩ := ih
    simp only [Nat.exists_lt_succ_right]
    cases hcall : calls[i]? with
    | none =>
      refine ⟨w, memory, by rwa [Run.stateAt_succ_of_none hcall], hsmall, fun n => ?_⟩
      rw [haccepted, or_iff_left]
      intro hsaid
      obtain ⟨call, hsome, -⟩ := Run.exists_of_outputs hsaid
      rw [hcall] at hsome
      cases hsome
    | some call =>
      rw [Run.stateAt_succ hcall, Run.outputs_getElem? hcall]
      obtain ⟨hwatch, hforget, htags⟩ := hclear.getElem? hcall
      obtain hopened | hclosed | ⟨hsame, hnone⟩ | ⟨t, m, w', rfl, hfind, hw', hok, hafter, hsaid⟩ :=
        lookup_step_cases find (Run.stateAt (step find) r calls i) call tagKey
      · exact absurd hopened hwatch
      · exact absurd hclosed hforget
      · refine ⟨w, memory, hsame.trans hw, hsmall, fun n => ?_⟩
        rw [haccepted, or_iff_left]
        intro hsome
        exact hnone n (Option.some.inj hsome)
      · obtain rfl := Option.some.inj (hw.symm.trans hw')
        have hm : m.toNat < 2 ^ 63 :=
          ((htags t rfl).2 m (hfinds.mem_listed hfind)).trans_le hsent
        refine ⟨_, _, hafter, hsmall.markSeen hm, fun n => ?_⟩
        have hsame := (Window.holds_markSeen hsmall.holds hsmall.farFromLast m).2
        rw [Window.mem_accepted_reference, haccepted, hsaid, ← hsame, hok]
        simp [Except.isOk, Except.toBool, UInt64.toNat_inj, eq_comm]

omit [Blake2b] in
/-- Where something is called, it is called for the first time. -/
theorem exists_first (h : calls[i]? = some call) :
    ∃ j ≤ i, calls[j]? = some call ∧ ∀ k < j, calls[k]? ≠ some call := by
  classical
  have hex : ∃ j, calls[j]? = some call := ⟨i, h⟩
  exact ⟨Nat.find hex, Nat.find_min' hex h, Nat.find_spec hex, fun k hk => Nat.find_min hex hk⟩

include hfinds hsent hnew hclear in
/-- A stream is recognised when its tag arrives for the first time. -/
theorem recognised_of_first (hreach : InReach tagKey sent calls) (hn : number.toNat < sent)
    (harrive : calls[i]? = some (.arrive (tag tagKey number)))
    (hfirst : ∀ j < i, calls[j]? ≠ some (.arrive (tag tagKey number))) :
    (Run.outputs (step find) r calls)[i]? = some (some (tagKey, number)) := by
  induction i using Nat.strong_induction_on generalizing number with
  | _ i ih =>
    obtain ⟨w, memory, hw, hsmall, haccepted⟩ := small_stateAt hfinds hsent hnew hclear i
    have hnotyet : number.toNat ∉ memory.accepted := by
      rw [haccepted]
      rintro ⟨j, hj, hsaid⟩
      exact hfirst j hj (arrive_of_recognised hfinds hsaid).2
    have hlow : ∀ a ∈ memory.accepted, a < number.toNat + 16 := by
      intro a ha
      have hword : (UInt64.ofNat a).toNat = a :=
        UInt64.toNat_ofNat_of_lt' ((hsmall.accepted_lt a ha).trans (by decide))
      rw [← hword, haccepted] at ha
      obtain ⟨j, hj, hsaid⟩ := ha
      by_contra hfar
      obtain ⟨k, hk, hearlier⟩ := hreach j number _ (lt_sent_of_recognised hfinds hclear hsaid)
        (arrive_of_recognised hfinds hsaid).2 (by omega)
      exact hfirst k (hk.trans hj) hearlier
    have hhigh : number.toNat < 32 ∨ ∃ a ∈ memory.accepted, number.toNat ≤ a + 16 := by
      by_cases hsmall : number.toNat < 32
      · exact .inl hsmall
      · -- the stream 16 before it has arrived, and was recognised when it did
        have hbefore : (number - 16).toNat = number.toNat - 16 :=
          UInt64.toNat_sub_of_le _ _ (by rw [UInt64.le_iff_toNat_le]; simp; omega)
        obtain ⟨j, hj, hearlier⟩ := hreach i (number - 16) number hn harrive (by omega)
        obtain ⟨k, hk, hcall, hnone⟩ := exists_first hearlier
        have hsaid := ih k (by omega) (by omega) hcall hnone
        exact .inr ⟨_, (haccepted _).mpr ⟨k, by omega, hsaid⟩, by omega⟩
    have hok := hsmall.accepts hnotyet hlow hhigh
    have hlast : number ≠ UInt64.last := by
      rintro rfl
      rw [UInt64.toNat_last] at hn
      omega
    have hlisted : ((tagKey, number), tag tagKey number) ∈
        (Run.stateAt (step find) r calls i).listed :=
      mem_listed_iff.mpr ⟨w, hw, Window.mem_expected.mpr
        ⟨Window.recognises_of_ok hok, hlast, rfl⟩⟩
    obtain ⟨stream, hfind⟩ := Option.isSome_iff_exists.mp (hfinds.isSome hlisted)
    obtain rfl := ((hclear.getElem? harrive).2.2 _ rfl).1 stream (tagKey, number)
      (hfinds.mem_listed hfind) hlisted
    rw [Run.outputs_getElem? harrive, step_arrive hfind hw hok]

end Delivery

/-- Tags that are listed once make an arrival clear. -/
theorem clear_arrive {sent : Nat} (hnodup : (r.listed.map Prod.snd).Nodup)
    (hsent : ∀ listed ∈ r.listed, listed.2 = t → listed.1.2.toNat < sent) :
    Clear tagKey sent r (.arrive t) := by
  refine ⟨nofun, nofun, fun t' ht => ?_⟩
  obtain rfl := Call.arrive.inj ht
  refine ⟨fun stream stream' hmem hmem' => ?_, fun number hmem => hsent _ hmem rfl⟩
  exact congrArg Prod.fst (List.inj_on_of_nodup_map hnodup hmem hmem' rfl)

end Recognising

/-! ## A stream that is sent again -/

namespace Sample

/-- A stand-in whose outputs differ in their first half. -/
abbrev spread : Blake2b where
  digest message := Octets.be 32 (Bytes.val (1 :: message) % (2 ^ 256 - 189))
  keyed key message :=
    Octets.be 32 (Bytes.val (2 :: (key.toList ++ message)) * 2 ^ 128 % (2 ^ 256 - 189))

attribute [local instance] spread

def key : Digest := Octets.be 32 7

/-- The window is restored before the stream is sent again. -/
def restarted : List Call :=
  [.watch key, .arrive (tag key 1), .arrive (tag key 0), .restore key, .arrive (tag key 1)]

theorem no_replay_restarted :
    let said := Run.outputs (step firstListed) ∅ restarted
    said[1]? = some (some (key, 1)) ∧ said[4]? ≠ some (some (key, 1)) := by
  intro said
  have honce : WatchesOnce restarted := by simp [WatchesOnce, restarted]
  have hfirst : said[1]? = some (some (key, 1)) := by decide +kernel
  refine ⟨hfirst, fun hagain => ?_⟩
  exact absurd ((no_replay firstListed finds_firstListed restarted honce).1 1 4 _ hfirst hagain)
    (by decide)

/-- One window with nothing seen. -/
def opened : Recipient := (∅ : Recipient).insert key .new

/-- The last of the streams overtakes all but the first one. -/
def overtaking : List Call := [.arrive (tag key 0), .arrive (tag key 16), .arrive (tag key 0)]

theorem sound_opened : opened.Sound := by
  intro tagKey w hw
  by_cases hkey : tagKey = key
  · subst hkey
    obtain rfl := Option.some.inj ((AList.lookup_insert _).symm.trans hw)
    exact Window.not_marked_new _
  · rw [opened, AList.lookup_insert_ne hkey, AList.lookup_empty] at hw
    cases hw

theorem inReach_overtaking : InReach key 17 overtaking := by
  intro i m n hn harrive hle
  obtain rfl : n = 16 := UInt64.toNat_inj.mp (by change n.toNat = 16; omega)
  obtain rfl : m = 0 := UInt64.toNat_inj.mp (by change m.toNat = 0; omega)
  cases i with
  | zero =>
    have hdiffer : tag key 0 ≠ tag key 16 := by decide +kernel
    exact absurd (Call.arrive.inj (Option.some.inj harrive)) hdiffer
  | succ i => exact ⟨0, Nat.succ_pos i, rfl⟩

end Sample

end Recipient

end Onestein.Transport
