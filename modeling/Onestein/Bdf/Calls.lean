import Onestein.Bdf.Halting

/-!
# The calls of the reader

A list or a dictionary is read by calls for its elements, one level down. The calls are made one
behind the other, each takes a byte at least, and a level is refused before there are too many.

## Main definitions

* `valueAt` — one object at a nesting depth, with the frames that are left there.
* `Call.Makes` — a call makes another one for an element.
* `Active` — a call is active above the calls that led to it.

## Main results

* `valueAt_eq` — no call depends on the frames, so a call is what it makes of its own calls.
* `Call.run_eq` — a call has the answer that the calls it makes lead to.
* `Call.Makes.spec` — where a call makes another one.
* `reader_bounded` — how many calls there are, how they end and what they read.
-/

namespace Onestein.Bdf

open Reader

/-- What a call does, with `element` for the calls that it makes. -/
def step (element : Nat → ReadM Value) (depth : Nat) : ReadM Value := do
  let header ← byte
  body element depth header

/-- One object at a nesting depth. As many calls may be active as there are levels left. -/
def valueAt (depth : Nat) : ReadM Value := value (maxNesting + 1 - depth) depth

/-- A call of `value`: where it starts, and how deep. -/
structure Call where
  depth : Nat
  reader : Reader

namespace Call

/-- How a call ends. -/
def run (call : Call) : Option (Except Error (Value × Reader)) := valueAt call.depth call.reader

/-- The reader behind the header, where the elements of a container start. -/
def inside (call : Call) : Reader := call.reader.advance 1

/-- The outer call makes the inner one. -/
def Makes (outer inner : Call) : Prop :=
  Prog.Calls (fun element => step element outer.depth) valueAt outer.reader inner.depth inner.reader

end Call

/-- In decoding the input, the call is active above its callers, the last of them in front. -/
inductive Active (input : Bytes) (strict : Bool) : List Call → Call → Prop
  | start : Active input strict [] ⟨0, ⟨input, 0, strict⟩⟩
  | call {callers : List Call} {outer inner : Call} (h : Active input strict callers outer)
      (hmakes : outer.Makes inner) : Active input strict (outer :: callers) inner

/-! ## One call -/

section

variable {element element' : Nat → ReadM Value} {depth : Nat}

/-- A call is made one level down or not at all. -/
theorem body_congr (h : depth < maxNesting → element (depth + 1) = element' (depth + 1))
    (header : UInt8) : body element depth header = body element' depth header := by
  have hdeeper (container : ReadM Value → ReadM Value) :
      (do let depth ← deeper depth; container (element depth)) =
        (do let depth ← deeper depth; container (element' depth)) := by
    funext r
    unfold deeper
    split
    case isTrue => rfl
    case isFalse hle =>
      show container (element (depth + 1)) r = container (element' (depth + 1)) r
      rw [h (by omega)]
  unfold body
  rw [hdeeper listValue, hdeeper dictValue]

/-- The frames are a bound that is not met: a call is what it makes of the calls one level down,
as in the source. -/
theorem valueAt_eq (hd : depth ≤ maxNesting) : valueAt depth = step valueAt depth := by
  have hframes : maxNesting + 1 - depth = maxNesting - depth + 1 := by omega
  have hnext : value (maxNesting - depth) (depth + 1) = valueAt (depth + 1) := by
    rw [valueAt, Nat.add_sub_add_right]
  rw [valueAt, hframes, value, step]
  congr 1
  funext header
  exact body_congr (fun _ => hnext) header

theorem determined_itemLoop (depth fuel : Nat) (items : List Value) :
    Prog.Determined fun element : Nat → ReadM Value => itemLoop (element depth) fuel items := by
  induction fuel generalizing items with
  | zero => exact Prog.determined_const _
  | succ fuel ih =>
    refine Prog.determined_bind (Prog.determined_const peek) fun next => ?_
    refine Prog.determined_ite (Prog.determined_const _) ?_
    exact Prog.determined_bind (Prog.determined_call depth) fun item => ih (items ++ [item])

theorem determined_entryLoop (depth fuel : Nat) (entries : List (String × Value)) :
    Prog.Determined fun element : Nat → ReadM Value => entryLoop (element depth) fuel entries := by
  induction fuel generalizing entries with
  | zero => exact Prog.determined_const _
  | succ fuel ih =>
    refine Prog.determined_bind (Prog.determined_const peek) fun next => ?_
    refine Prog.determined_ite (Prog.determined_const _) ?_
    refine Prog.determined_bind (Prog.determined_call depth) fun key => ?_
    cases key with
    | str key =>
      refine Prog.determined_bind (Prog.determined_const (checkOrder key entries)) fun _ => ?_
      exact Prog.determined_bind (Prog.determined_call depth) fun item =>
        ih (entries ++ [(key, item)])
    | null | bool | int | float | raw | list | dict => exact Prog.determined_const _

theorem determined_container {α : Type} {loop : (Nat → ReadM Value) → Nat → ReadM α}
    (result : α → Value) (h : ∀ fuel, Prog.Determined fun element => loop element fuel) :
    Prog.Determined fun element =>
      (do let fuel ← loopFuel; let read ← loop element fuel; skipEnd; return result read :
        ReadM Value) := by
  refine Prog.determined_bind (Prog.determined_const loopFuel) fun fuel => ?_
  exact Prog.determined_bind (h fuel) fun _ => Prog.determined_const _

theorem determined_step (depth : Nat) : Prog.Determined fun element => step element depth := by
  refine Prog.determined_bind (Prog.determined_const byte) fun header => ?_
  unfold body
  dsimp only
  generalize (header >>> 4).toNat = kind
  match kind with
  | 0 | 1 | 2 | 3 | 4 | 5 | 8 | kind + 9 => exact Prog.determined_const _
  | 6 =>
    refine Prog.determined_ite ?_ (Prog.determined_const _)
    refine Prog.determined_bind (Prog.determined_const (deeper depth)) fun next => ?_
    exact determined_container .list fun fuel => determined_itemLoop next fuel []
  | 7 =>
    refine Prog.determined_ite ?_ (Prog.determined_const _)
    refine Prog.determined_bind (Prog.determined_const (deeper depth)) fun next => ?_
    exact determined_container .dict fun fuel => determined_entryLoop next fuel []

theorem advances_valueAt (hd : depth ≤ maxNesting) : Advances (valueAt depth) :=
  (value_acceptsAt (by omega) hd).advances

theorem halts_valueAt (hd : depth ≤ maxNesting) (r : Reader) : (valueAt depth).Halts r :=
  halts_value (by omega) hd r

end

namespace Call

variable {outer inner : Call}

/-- A call is made one level down, behind the header and some elements that were read. -/
theorem Makes.spec (h : outer.Makes inner) :
    outer.depth < maxNesting ∧ inner.depth = outer.depth + 1 ∧
      outer.reader.remaining = 1 + outer.inside.remaining ∧
      ∃ count, (valueAt inner.depth).Repeated count outer.inside inner.reader := by
  by_contra hnone
  -- elsewhere every call has its answer, and so has the outer one
  have hhalts : (step (Prog.cut valueAt inner.depth inner.reader) outer.depth).Halts
      outer.reader := by
    refine Prog.halts_bind (halts_byte outer.reader) fun header s hbyte => ?_
    have hheader := byte_eq_ok.mp hbyte
    obtain rfl : s = outer.inside := hheader.2
    refine halts_body header (fun hlt r v r' hread => ?_) fun hlt count s hrep => ?_
    · exact advances_valueAt hlt r v r' (Prog.eq_some_of_cut hread)
    · refine Prog.halts_cut (halts_valueAt hlt s) ?_
      rintro ⟨hdepth, rfl⟩
      refine hnone ⟨hlt, hdepth.symm, hheader.remaining_eq, count, ?_⟩
      rw [← hdepth]
      exact hrep.mono fun _ _ => Prog.eq_some_of_cut
  exact hhalts h

/-- A call has the answer that the calls it makes lead to, so it makes no others. -/
theorem run_eq {call : Call} (hd : call.depth ≤ maxNesting) {element : Nat → ReadM Value}
    (h : ∀ inner, call.Makes inner → element inner.depth inner.reader = inner.run) :
    step element call.depth call.reader = call.run := by
  rw [run, valueAt_eq hd]
  exact determined_step call.depth valueAt element call.reader fun depth r hcalls =>
    h ⟨depth, r⟩ hcalls

/-- A successful call moves the reader on, inside the input. -/
theorem advances_run {call : Call} (hd : call.depth ≤ maxNesting) {v : Value} {r' : Reader}
    (h : call.run = some (.ok (v, r'))) :
    call.reader.pos < r'.pos ∧ r'.pos ≤ r'.input.length ∧ r'.input = call.reader.input := by
  obtain ⟨count, hpos, rfl, hle⟩ := advances_valueAt hd _ _ _ h
  exact ⟨Nat.lt_add_of_pos_right hpos, hle, rfl⟩

end Call

/-! ## All calls -/

/-- There is a caller for each level, and all of them read one input. -/
theorem Active.spec {input : Bytes} {strict : Bool} {callers : List Call} {call : Call}
    (h : Active input strict callers call) :
    call.depth = callers.length ∧ call.depth ≤ maxNesting ∧ call.reader.input = input := by
  induction h with
  | start => exact ⟨rfl, Nat.zero_le _, rfl⟩
  | call h hmakes ih =>
    obtain ⟨hlength, -, hinput⟩ := ih
    obtain ⟨hlt, hdepth, -, count, hrep⟩ := hmakes.spec
    refine ⟨by rw [hdepth, hlength, List.length_cons], by omega, ?_⟩
    refine hrep.keeps (p := fun r => r.input = input) (fun r v r' hread hr => ?_) hinput
    obtain ⟨count, -, rfl, -⟩ := advances_valueAt (by omega) r v r' hread
    exact hr

/-- Decoding ends on every input. No call is deeper than the limit, so one more than that are
active at most. Every call ends, and if it succeeds it has taken a byte at least and stopped inside
the input. It makes its calls one behind the other: those before read `count` elements, which are
no more than the bytes left behind the header. With the call itself they are no more than the bytes
that were left for the whole container, and if it succeeds, no more than those behind the header. -/
theorem reader_bounded (input : Bytes) (strict : Bool) :
    readOne.Halts ⟨input, 0, strict⟩ ∧
    ∀ callers call, Active input strict callers call →
      call.depth ≤ maxNesting ∧ (call :: callers).length ≤ maxNesting + 1 ∧
      (∃ answer, call.run = some answer) ∧
      (∀ v r', call.run = some (.ok (v, r')) →
        call.reader.pos < r'.pos ∧ r'.pos ≤ input.length) ∧
      ∀ inner, call.Makes inner → ∃ count,
        (valueAt inner.depth).Repeated count call.inside inner.reader ∧
        count ≤ call.inside.remaining ∧ count + 1 ≤ call.reader.remaining ∧
        ∀ v r', inner.run = some (.ok (v, r')) → count + 1 ≤ call.inside.remaining := by
  refine ⟨halts_readOne _, fun callers call hactive => ?_⟩
  obtain ⟨hlength, hd, hinput⟩ := hactive.spec
  refine ⟨hd, by rw [List.length_cons]; omega,
    Option.ne_none_iff_exists'.mp (halts_valueAt hd call.reader), ?_, ?_⟩
  · intro v r' hrun
    obtain ⟨hlt, hle, hsame⟩ := Call.advances_run hd hrun
    rw [hsame, hinput] at hle
    exact ⟨hlt, hle⟩
  · intro inner hmakes
    obtain ⟨hlt, hdepth, hheader, count, hrep⟩ := hmakes.spec
    have hinner : inner.depth ≤ maxNesting := by omega
    have hlower := (advances_valueAt hinner).remaining_lt
    have hcount := hrep.add_le hlower
    refine ⟨count, hrep, by omega, by omega, fun v r' hrun => ?_⟩
    have hread := hlower _ _ _ hrun
    omega

/-- In a list that is read inside a list, the inner one is a call below the limit. -/
example : Active [0x60, 0x60, 0x80, 0x80] true [⟨0, ⟨[0x60, 0x60, 0x80, 0x80], 0, true⟩⟩]
    ⟨1, ⟨[0x60, 0x60, 0x80, 0x80], 1, true⟩⟩ := .call .start rfl

end Onestein.Bdf
