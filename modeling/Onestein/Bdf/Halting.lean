import Onestein.Bdf.Accepts

/-!
# Decoding always ends

No loop of the reader outlives its fuel, because every element it reads takes a byte from
the input, and no recursion outlives its frames, because `deeper` refuses before they are
used up. Decoding is therefore a function into results and errors.

## Main definitions

* `Advances` — what reading an element does to the position.
* `fromBytes`, `fromBytesCanonical` — the decoders.

## Main results

* `halts_readOne` — the reader ends on every input.
* `fromBytes_eq_ok`, `fromBytesCanonical_eq_ok` — the decoders accept exactly the encodings.
* `fromBytes_iff_encodes` — what the lenient decoder answers, on every input.
-/

namespace Onestein.Bdf

open Bytes Reader

variable {r : Reader}

/-! ## Primitives -/

theorem halts_byte (r : Reader) : byte.Halts r := by
  refine Prog.halts_bind (Prog.halts_get r) fun _ s _ => ?_
  split
  · exact Prog.halts_fail _ s
  · exact Prog.halts_bind (Prog.halts_set s _) fun _ t _ => Prog.halts_pure _ t

theorem halts_take (count : UInt64) (r : Reader) : (take count).Halts r := by
  refine Prog.halts_bind (Prog.halts_get r) fun _ s _ => ?_
  split
  · exact Prog.halts_fail _ s
  · exact Prog.halts_bind (Prog.halts_set s _) fun _ t _ => Prog.halts_pure _ t

theorem halts_signedBytes (count : Nat) (number : Int64) (first : Bool) (r : Reader) :
    (signedBytes count number first).Halts r := by
  induction count generalizing number first r with
  | zero => exact Prog.halts_pure number r
  | succ count ih => exact Prog.halts_bind (halts_byte r) fun _ s _ => ih _ false s

theorem halts_signed (length : UInt8) (r : Reader) : (signed length).Halts r := by
  unfold signed
  split
  · exact halts_signedBytes _ _ _ r
  · exact Prog.halts_fail _ r

theorem halts_length (lengthOfLength : UInt8) (r : Reader) : (length lengthOfLength).Halts r := by
  unfold length
  split
  · refine Prog.halts_bind (halts_signed _ r) fun _ s _ => ?_
    refine Prog.halts_bind (Prog.halts_get s) fun _ t _ => ?_
    dsimp only
    split_ifs <;> simp
  · exact Prog.halts_fail _ r

theorem halts_deeper (depth : Nat) (r : Reader) : (deeper depth).Halts r := by
  unfold deeper
  split <;> simp

theorem halts_checkOrder (key : String) (entries : List (String × Value)) (r : Reader) :
    (checkOrder key entries).Halts r := by
  refine Prog.halts_bind (Prog.halts_get r) fun _ s _ => ?_
  split_ifs
  · cases entries.getLast? with
    | none => exact Prog.halts_pure () s
    | some last => dsimp only; split <;> simp
  · exact Prog.halts_pure () s

/-! ## Scalars -/

theorem halts_intValue (low : UInt8) (r : Reader) : (intValue low).Halts r := by
  refine Prog.halts_bind (halts_signed low r) fun _ s _ => ?_
  refine Prog.halts_bind (Prog.halts_get s) fun _ t _ => ?_
  dsimp only
  split_ifs <;> simp

theorem halts_floatValue (low : UInt8) (r : Reader) : (floatValue low).Halts r := by
  unfold floatValue
  split
  · exact Prog.halts_fail _ r
  · exact Prog.halts_bind (halts_take 8 r) fun _ s _ => Prog.halts_pure _ s

theorem halts_strValue (low : UInt8) (r : Reader) : (strValue low).Halts r := by
  refine Prog.halts_bind (halts_length low r) fun _ s _ => ?_
  refine Prog.halts_bind (halts_take _ s) fun _ t _ => ?_
  split <;> simp

theorem halts_rawValue (low : UInt8) (r : Reader) : (rawValue low).Halts r :=
  Prog.halts_bind (halts_length low r) fun _ s _ =>
    Prog.halts_bind (halts_take _ s) fun _ t _ => Prog.halts_pure _ t

/-! ## Containers -/

section Containers

variable {depth : Nat} {element : ReadM Value}

/-- An element that was read has moved the reader on, inside the input. -/
def Advances (element : ReadM Value) : Prop :=
  ∀ r v r', element r = some (.ok (v, r')) →
    ∃ count, 0 < count ∧ r' = r.advance count ∧ r'.pos ≤ r'.input.length

theorem AcceptsAt.advances (he : AcceptsAt depth element) : Advances element := by
  intro r v r' h
  obtain ⟨b, henc, -, hr⟩ := (he _ _ _).mp h
  have hpos := henc.length_pos
  have hle := hr.1.length_le
  rw [length_rest, remaining] at hle
  refine ⟨b.length, hpos, hr.2, ?_⟩
  rw [hr.2]
  show r.pos + b.length ≤ r.input.length
  omega

theorem Advances.remaining_lt (ha : Advances element) (r : Reader) (v : Value) (r' : Reader)
    (h : element r = some (.ok (v, r'))) : r'.remaining < r.remaining := by
  obtain ⟨count, hpos, rfl, hle⟩ := ha _ _ _ h
  simp only [remaining, advance] at hle ⊢
  omega

theorem halts_itemLoop (ha : Advances element)
    (hh : ∀ count s, element.Repeated count r s → element.Halts s) {fuel : Nat}
    (hfuel : r.remaining < fuel) (items : List Value) : (itemLoop element fuel items).Halts r := by
  induction fuel generalizing r items with
  | zero => omega
  | succ fuel ih =>
    refine Prog.halts_bind_of_ok peek_eq ?_
    split
    · exact Prog.halts_pure _ r
    · refine Prog.halts_bind (hh 0 r (.zero r)) fun item s hitem => ?_
      have hlt := ha.remaining_lt r item s hitem
      exact ih (fun count t ht => hh (count + 1) t (.succ hitem ht)) (by omega) _

theorem halts_entryLoop (ha : Advances element)
    (hh : ∀ count s, element.Repeated count r s → element.Halts s) {fuel : Nat}
    (hfuel : r.remaining < fuel) (entries : List (String × Value)) :
    (entryLoop element fuel entries).Halts r := by
  induction fuel generalizing r entries with
  | zero => omega
  | succ fuel ih =>
    refine Prog.halts_bind_of_ok peek_eq ?_
    split
    · exact Prog.halts_pure _ r
    · refine Prog.halts_bind (hh 0 r (.zero r)) fun key s hkey => ?_
      have hltk := ha.remaining_lt r key s hkey
      cases key with
      | str key =>
        refine Prog.halts_bind (halts_checkOrder key entries s) fun _ t horder => ?_
        obtain ⟨rfl, -⟩ := checkOrder_eq_ok.mp horder
        refine Prog.halts_bind (hh 1 t (.succ hkey (.zero t))) fun item u hitem => ?_
        have hlt := ha.remaining_lt t item u hitem
        exact ih (fun count v hv => hh (count + 2) v (.succ hkey (.succ hitem hv))) (by omega) _
      | null | bool | int | float | raw | list | dict => exact Prog.halts_fail _ s

/-- A container is read to an answer when its loop is. -/
theorem halts_container {α : Type} {loop : Nat → ReadM α} (result : α → Value)
    (h : (loop (r.remaining + 1)).Halts r) :
    (do let fuel ← loopFuel; let read ← loop fuel; skipEnd; return result read :
      ReadM Value).Halts r := by
  refine Prog.halts_bind_of_ok loopFuel_eq (Prog.halts_bind h fun _ s _ => ?_)
  exact Prog.halts_bind_of_ok (a := ()) (skipEnd_eq_ok.mpr rfl) (Prog.halts_pure _ _)

theorem halts_listValue (ha : Advances element)
    (hh : ∀ count s, element.Repeated count r s → element.Halts s) :
    (listValue element).Halts r :=
  halts_container .list (halts_itemLoop ha hh (by omega) [])

theorem halts_dictValue (ha : Advances element)
    (hh : ∀ count s, element.Repeated count r s → element.Halts s) :
    (dictValue element).Halts r :=
  halts_container .dict (halts_entryLoop ha hh (by omega) [])

end Containers

/-! ## The reader -/

theorem halts_body {element : Nat → ReadM Value} {depth : Nat} (header : UInt8)
    (ha : depth < maxNesting → Advances (element (depth + 1)))
    (hh : depth < maxNesting → ∀ count s, (element (depth + 1)).Repeated count r s →
      (element (depth + 1)).Halts s) : (body element depth header).Halts r := by
  unfold body
  dsimp only
  generalize (header >>> 4).toNat = kind
  match kind with
  | 0 | 1 => exact Prog.halts_ite_fail fun _ => Prog.halts_pure _ r
  | 2 => exact halts_intValue _ r
  | 3 => exact halts_floatValue _ r
  | 4 => exact halts_strValue _ r
  | 5 => exact halts_rawValue _ r
  | 6 =>
    refine Prog.halts_ite_fail fun _ => ?_
    refine Prog.halts_bind (halts_deeper depth r) fun next s hdeeper => ?_
    obtain ⟨hlt, rfl, rfl⟩ := deeper_eq_ok.mp hdeeper
    exact halts_listValue (ha hlt) (hh hlt)
  | 7 =>
    refine Prog.halts_ite_fail fun _ => ?_
    refine Prog.halts_bind (halts_deeper depth r) fun next s hdeeper => ?_
    obtain ⟨hlt, rfl, rfl⟩ := deeper_eq_ok.mp hdeeper
    exact halts_dictValue (ha hlt) (hh hlt)
  | 8 | kind + 9 => exact Prog.halts_fail _ r

theorem halts_value {frames depth : Nat} (hframes : maxNesting < frames + depth)
    (hd : depth ≤ maxNesting) (r : Reader) : (value frames depth).Halts r := by
  induction frames generalizing depth r with
  | zero => omega
  | succ frames ih =>
    refine Prog.halts_bind (halts_byte r) fun header s _ => ?_
    exact halts_body header (fun hlt => (value_acceptsAt (by omega) (by omega)).advances)
      (fun hlt _ t _ => ih (by omega) (by omega) t)

theorem halts_readOne (r : Reader) : readOne.Halts r := by
  refine Prog.halts_bind (halts_value (by omega) (by omega) r) fun _ s _ => ?_
  refine Prog.halts_bind (Prog.halts_get s) fun _ t _ => ?_
  split_ifs <;> simp

/-- Decodes one object, canonical or not, and requires the input to end there. -/
def fromBytes (input : Bytes) : Except Error Value :=
  readOne.answer ⟨input, 0, false⟩ (halts_readOne _)

/-- Decodes one object and requires it to be in canonical form. -/
def fromBytesCanonical (input : Bytes) : Except Error Value :=
  readOne.answer ⟨input, 0, true⟩ (halts_readOne _)

theorem fromBytes_eq_ok {input : Bytes} {v : Value} :
    fromBytes input = .ok v ↔ Encodes false v input ∧ v.nesting ≤ maxNesting :=
  (Prog.answer_eq_ok _).trans readOne_eq_ok

theorem fromBytesCanonical_eq_ok {input : Bytes} {v : Value} :
    fromBytesCanonical input = .ok v ↔ Encodes true v input ∧ v.nesting ≤ maxNesting :=
  (Prog.answer_eq_ok _).trans readOne_eq_ok

/-- The lenient decoder is the grammar up to the nesting limit: it answers with the value the
bytes encode, and refuses when there is none or when it nests too deep. -/
theorem fromBytes_iff_encodes (input : Bytes) :
    (∀ v, fromBytes input = .ok v ↔ Encodes false v input ∧ v.nesting ≤ maxNesting) ∧
      ((∃ e, fromBytes input = .error e) ↔
        ∀ v, Encodes false v input → maxNesting < v.nesting) := by
  refine ⟨fun v => fromBytes_eq_ok, ?_⟩
  constructor
  · intro ⟨e, he⟩ v henc
    by_contra hn
    have hok := fromBytes_eq_ok.mpr ⟨henc, Nat.le_of_not_lt hn⟩
    simp [he] at hok
  · intro hdeep
    cases h : fromBytes input with
    | error e => exact ⟨e, rfl⟩
    | ok v =>
      obtain ⟨henc, hn⟩ := fromBytes_eq_ok.mp h
      exact absurd (hdeep v henc) (Nat.not_lt.mpr hn)

end Onestein.Bdf
