import Onestein.Bdf.Errors
import Onestein.Lib.Simulation

/-!
# More bytes, and fewer rules

A run of the reader is compared with a run over the same bytes that may have more of them behind
and that may not be strict. The second run does what the first one does, unless the first stops
because its bytes are used up or because of a rule that only it has.

## Main definitions

* `Reader.Ahead` — a reader of the same bytes that may have more of them, and fewer rules.
* `Excused` — the errors of the first run that say nothing about the second.

## Main results

* `canonical_refines_lenient` — strict mode refuses more, and changes no other answer.
* `cut_and_extend` — which answers outlive the bytes that follow.
-/

namespace Onestein.Bdf

open Bytes Reader

variable {more : Bytes} {strict strict' : Bool} {r r' : Reader}

/-- `r'` is where `r` is, with `more` bytes behind, and strict only if `r` is. -/
structure Reader.Ahead (more : Bytes) (strict strict' : Bool) (r r' : Reader) : Prop where
  input_eq : r'.input = r.input ++ more
  pos_eq : r'.pos = r.pos
  pos_le : r.pos ≤ r.input.length
  strict_eq : r.strict = strict
  strict_eq' : r'.strict = strict'
  relaxes : strict' → strict

/-- The errors for want of bytes, and those of rules that the second reader has not. -/
def Excused (more : Bytes) (strict strict' : Bool) (e : Error) : Prop :=
  (more ≠ [] ∧ e.isExhausted) ∨ (strict ≠ strict' ∧ e.isFormal)

/-- The second reader answers as the first one, unless the first one is excused. -/
abbrev Goes (more : Bytes) (strict strict' : Bool) {α : Type} (x y : ReadM α) (r r' : Reader) :
    Prop :=
  x.Follows (Excused more strict strict') (Ahead more strict strict') y r r'

/-! ## Primitives -/

theorem Reader.Ahead.advance (h : Ahead more strict strict' r r') {count : Nat}
    (hle : count ≤ r.remaining) :
    Ahead more strict strict' (r.advance count) (r'.advance count) where
  input_eq := h.input_eq
  pos_eq := congrArg (· + count) h.pos_eq
  pos_le := by
    have := h.pos_le
    simp only [Reader.advance, remaining] at hle ⊢
    omega
  strict_eq := h.strict_eq
  strict_eq' := h.strict_eq'
  relaxes := h.relaxes

theorem Reader.Ahead.rest_eq (h : Ahead more strict strict' r r') : r'.rest = r.rest ++ more := by
  rw [rest, rest, h.input_eq, h.pos_eq, List.drop_append_of_le_length h.pos_le]

theorem Reader.Ahead.remaining_eq (h : Ahead more strict strict' r r') :
    r'.remaining = r.remaining + more.length := by
  rw [← length_rest, ← length_rest, h.rest_eq, List.length_append]

theorem goes_byte (h : Ahead more strict strict' r r') :
    Goes more strict strict' byte byte r r' := by
  cases hr : r.rest with
  | nil =>
    have hbyte : byte r = some (.error .truncated) := by
      simp [byte, Prog.bind_of_ok (Prog.get_apply r), getElem?_pos, hr]
    by_cases hmore : more = []
    · obtain rfl := hmore
      have hbyte' : byte r' = some (.error .truncated) := by
        simp [byte, Prog.bind_of_ok (Prog.get_apply r'), getElem?_pos, h.rest_eq, hr]
      exact ⟨fun e he => .inr (by rw [hbyte', ← hbyte, he]), fun _ _ ha => by simp [hbyte] at ha⟩
    · exact Prog.follows_of_excuse hbyte (.inl ⟨hmore, rfl⟩)
  | cons x tail =>
    refine Prog.follows_get_bind ?_
    rw [getElem?_pos, getElem?_pos, h.rest_eq, hr]
    refine Prog.follows_set_bind (Prog.follows_pure (h.advance ?_))
    simp [← length_rest, hr]

theorem goes_take (h : Ahead more strict strict' r r') (count : UInt64) :
    Goes more strict strict' (take count) (take count) r r' := by
  by_cases hlt : r.remaining < count.toNat
  · have htake : take count r = some (.error (.lengthBeyondInput count r.remaining)) := by
      simp [take, Prog.bind_of_ok (Prog.get_apply r), hlt]
    by_cases hmore : more = []
    · obtain rfl := hmore
      have heq : r'.remaining = r.remaining := h.remaining_eq
      have htake' : take count r' = take count r := by
        rw [htake]
        simp [take, Prog.bind_of_ok (Prog.get_apply r'), heq, hlt]
      exact ⟨fun e he => .inr (htake'.trans he), fun _ _ ha => by simp [htake] at ha⟩
    · exact Prog.follows_of_excuse htake (.inl ⟨hmore, rfl⟩)
  · refine Prog.follows_get_bind ?_
    have hlen := h.remaining_eq
    rw [if_neg hlt, if_neg (by omega), h.rest_eq,
      List.take_append_of_le_length (by rw [length_rest]; omega)]
    exact Prog.follows_set_bind (Prog.follows_pure (h.advance (by omega)))

theorem goes_signedBytes (h : Ahead more strict strict' r r') (count : Nat) (number : Int64)
    (first : Bool) :
    Goes more strict strict' (signedBytes count number first) (signedBytes count number first)
      r r' := by
  induction count generalizing r r' number first with
  | zero => exact Prog.follows_pure h
  | succ count ih => exact Prog.follows_bind (goes_byte h) fun _ _ _ _ ht => ih ht _ _

theorem goes_signed (h : Ahead more strict strict' r r') (length : UInt8) :
    Goes more strict strict' (signed length) (signed length) r r' :=
  Prog.follows_ite (fun _ => goes_signedBytes h _ _ _) fun _ => Prog.follows_fail

/-- A rule of strict mode: where it is broken, the first reader is excused unless the second one
has the rule too. -/
theorem goes_rule {α : Type} {c : Prop} [Decidable c] {e : Error} {x : ReadM α}
    (h : Ahead more strict strict' r r') (he : e.isFormal)
    (hx : Goes more strict strict' x x r r') :
    Goes more strict strict' (if r.strict ∧ c then .fail e else x)
      (if r'.strict ∧ c then .fail e else x) r r' := by
  rw [h.strict_eq, h.strict_eq']
  by_cases hbroken : strict = true ∧ c
  · by_cases hsame : strict = strict'
    · subst hsame
      exact Prog.follows_ite (fun _ => Prog.follows_fail) fun _ => hx
    · exact Prog.follows_of_excuse (by simp [hbroken]) (.inr ⟨hsame, he⟩)
  · have hkept : ¬ (strict' = true ∧ c) := fun hs => hbroken ⟨h.relaxes hs.1, hs.2⟩
    rw [if_neg hbroken, if_neg hkept]
    exact hx

theorem goes_length (h : Ahead more strict strict' r r') (low : UInt8) :
    Goes more strict strict' (length low) (length low) r r' := by
  refine Prog.follows_ite (fun _ => ?_) fun _ => Prog.follows_fail
  refine Prog.follows_bind (goes_signed h low) fun number s s' _ hs => ?_
  refine Prog.follows_get_bind (goes_rule hs rfl ?_)
  exact Prog.follows_ite (fun _ => Prog.follows_fail) fun _ => Prog.follows_pure hs

theorem goes_intValue (h : Ahead more strict strict' r r') (low : UInt8) :
    Goes more strict strict' (intValue low) (intValue low) r r' := by
  refine Prog.follows_bind (goes_signed h low) fun number s s' _ hs => ?_
  exact Prog.follows_get_bind (goes_rule hs rfl (Prog.follows_pure hs))

theorem goes_floatValue (h : Ahead more strict strict' r r') (low : UInt8) :
    Goes more strict strict' (floatValue low) (floatValue low) r r' :=
  Prog.follows_ite (fun _ => Prog.follows_fail) fun _ =>
    Prog.follows_bind (goes_take h 8) fun _ _ _ _ hs => Prog.follows_pure hs

theorem goes_strValue (h : Ahead more strict strict' r r') (low : UInt8) :
    Goes more strict strict' (strValue low) (strValue low) r r' := by
  refine Prog.follows_bind (goes_length h low) fun count s s' _ hs => ?_
  refine Prog.follows_bind (goes_take hs count) fun bytes t t' _ ht => ?_
  cases text? bytes with
  | none => exact Prog.follows_fail
  | some text => exact Prog.follows_pure ht

theorem goes_rawValue (h : Ahead more strict strict' r r') (low : UInt8) :
    Goes more strict strict' (rawValue low) (rawValue low) r r' :=
  Prog.follows_bind (goes_length h low) fun count _ _ _ hs =>
    Prog.follows_bind (goes_take hs count) fun _ _ _ _ ht => Prog.follows_pure ht

theorem goes_checkOrder (h : Ahead more strict strict' r r') (key : String)
    (entries : List (String × Value)) :
    Goes more strict strict' (checkOrder key entries) (checkOrder key entries) r r' := by
  refine Prog.follows_get_bind ?_
  rw [h.strict_eq, h.strict_eq']
  cases hs : strict with
  | false =>
    have hs' : strict' = false := by
      by_contra hne
      simpa [hs] using h.relaxes (by simpa using hne)
    subst hs hs'
    exact Prog.follows_pure h
  | true =>
    cases hlast : entries.getLast? with
    | none => cases strict' <;> exact Prog.follows_pure (hs ▸ h)
    | some last =>
      -- only where the key is not above the last one does the second mode matter
      have hfail {e : Error} (he : e.isFormal) : Goes more true strict' (.fail e)
          (if strict' = true then .fail e else pure () : ReadM Unit) r r' := by
        cases strict' with
        | false => exact Prog.follows_of_excuse rfl (.inr ⟨by simp, he⟩)
        | true => exact Prog.follows_fail
      dsimp only
      cases hkeys : compare (utf8 key) (utf8 last.1) with
      | gt => cases strict' <;> exact Prog.follows_pure (hs ▸ h)
      | eq => exact hfail rfl
      | lt => exact hfail rfl

/-! ## Containers -/

section Containers

variable {element : ReadM Value}

/-- A reader that has stopped at a sentinel. -/
def AtEnd (more : Bytes) (strict strict' : Bool) (r r' : Reader) : Prop :=
  Ahead more strict strict' r r' ∧ 0 < r.remaining

/-- In front of a first byte both readers see it. -/
theorem peek_of_ahead (h : Ahead more strict strict' r r') {x : UInt8} {tail : Bytes}
    (hr : r.rest = x :: tail) :
    peek r = some (.ok (some x, r)) ∧ peek r' = some (.ok (some x, r')) := by
  rw [peek_eq, peek_eq, h.rest_eq, hr]
  exact ⟨rfl, rfl⟩

/-- The first reader of a loop goes on to an element that finds no byte, so only in front of a byte
have the two loops to be compared. -/
theorem goes_round {α : Type} {x y : Option UInt8 → ReadM α} {rel : Reader → Reader → Prop}
    (h : Ahead more strict strict' r r')
    (hstop : r.rest = [] → x none r = some (.error .truncated))
    (hstop' : r'.rest = [] → y none r' = some (.error .truncated))
    (hbyte : ∀ b tail, r.rest = b :: tail →
      (x (some b)).Follows (Excused more strict strict') rel (y (some b)) r r') :
    (peek >>= x).Follows (Excused more strict strict') rel (peek >>= y) r r' := by
  cases hr : r.rest with
  | nil =>
    have hx : (peek >>= x) r = some (.error .truncated) := by
      rw [Prog.bind_of_ok peek_eq, hr]
      exact hstop hr
    by_cases hmore : more = []
    · have hr' : r'.rest = [] := by rw [h.rest_eq, hr, hmore]; rfl
      have hy : (peek >>= y) r' = some (.error .truncated) := by
        rw [Prog.bind_of_ok peek_eq, hr']
        exact hstop' hr'
      exact ⟨fun e he => .inr (by rw [hy, ← hx, he]), fun _ _ ha => by simp [hx] at ha⟩
    · exact Prog.follows_of_excuse hx (.inl ⟨hmore, rfl⟩)
  | cons b tail =>
    obtain ⟨hpeek, hpeek'⟩ := peek_of_ahead h hr
    exact Prog.follows_bind_of_ok hpeek hpeek' (hbyte b tail hr)

variable
  (helement : ∀ r r', Ahead more strict strict' r r' →
    Goes more strict strict' element element r r')
  (hstop : ∀ r : Reader, r.rest = [] → element r = some (.error .truncated))

include helement hstop

theorem goes_itemLoop (h : Ahead more strict strict' r r') {fuel fuel' : Nat} (hle : fuel ≤ fuel')
    (items : List Value) :
    (itemLoop element fuel items).Follows (Excused more strict strict')
      (AtEnd more strict strict') (itemLoop element fuel' items) r r' := by
  induction fuel generalizing r r' fuel' items with
  | zero => exact Prog.follows_outOfFuel
  | succ fuel ih =>
    obtain ⟨fuel', rfl⟩ : ∃ count, fuel' = count + 1 := ⟨fuel' - 1, by omega⟩
    refine goes_round h (fun hr => ?_) (fun hr => ?_) fun b tail hr => ?_
    · exact Prog.bind_of_error (hstop r hr) _
    · exact Prog.bind_of_error (hstop r' hr) _
    · refine Prog.follows_ite (fun _ => Prog.follows_pure ⟨h, ?_⟩) fun _ => ?_
      · simp [← length_rest, hr]
      · exact Prog.follows_bind (helement r r' h) fun _ _ _ _ hs => ih hs (by omega) _

theorem goes_entryLoop (h : Ahead more strict strict' r r') {fuel fuel' : Nat} (hle : fuel ≤ fuel')
    (entries : List (String × Value)) :
    (entryLoop element fuel entries).Follows (Excused more strict strict')
      (AtEnd more strict strict') (entryLoop element fuel' entries) r r' := by
  induction fuel generalizing r r' fuel' entries with
  | zero => exact Prog.follows_outOfFuel
  | succ fuel ih =>
    obtain ⟨fuel', rfl⟩ : ∃ count, fuel' = count + 1 := ⟨fuel' - 1, by omega⟩
    refine goes_round h (fun hr => ?_) (fun hr => ?_) fun b tail hr => ?_
    · exact Prog.bind_of_error (hstop r hr) _
    · exact Prog.bind_of_error (hstop r' hr) _
    · refine Prog.follows_ite (fun _ => Prog.follows_pure ⟨h, ?_⟩) fun _ => ?_
      · simp [← length_rest, hr]
      · refine Prog.follows_bind (helement r r' h) fun key s s' _ hs => ?_
        cases key with
        | str key =>
          refine Prog.follows_bind (goes_checkOrder hs key entries) fun _ t t' _ ht => ?_
          exact Prog.follows_bind (helement t t' ht) fun _ _ _ _ hu => ih hu (by omega) _
        | null | bool | int | float | raw | list | dict => exact Prog.follows_fail

end Containers

/-- A container goes where its loop goes. -/
theorem goes_container {α : Type} {loop : Nat → ReadM α} (result : α → Value)
    (h : Ahead more strict strict' r r')
    (hloop : ∀ fuel fuel', fuel ≤ fuel' → (loop fuel).Follows (Excused more strict strict')
      (AtEnd more strict strict') (loop fuel') r r') :
    Goes more strict strict'
      (do let fuel ← loopFuel; let read ← loop fuel; skipEnd; return result read)
      (do let fuel ← loopFuel; let read ← loop fuel; skipEnd; return result read) r r' := by
  have hle := h.remaining_eq
  refine Prog.follows_bind_of_ok loopFuel_eq loopFuel_eq ?_
  refine Prog.follows_bind (hloop _ _ (by omega)) fun read s s' _ hs => ?_
  have hskip {t : Reader} : skipEnd t = some (.ok ((), t.advance 1)) := skipEnd_eq_ok.mpr rfl
  exact Prog.follows_bind_of_ok hskip hskip (Prog.follows_pure (hs.1.advance hs.2))

theorem goes_body {element : Nat → ReadM Value} {depth : Nat}
    (helement : ∀ r r', Ahead more strict strict' r r' →
      Goes more strict strict' (element (depth + 1)) (element (depth + 1)) r r')
    (hstop : depth < maxNesting →
      ∀ r : Reader, r.rest = [] → element (depth + 1) r = some (.error .truncated))
    (h : Ahead more strict strict' r r') (header : UInt8) :
    Goes more strict strict' (body element depth header) (body element depth header) r r' := by
  have hdeeper : Goes more strict strict' (deeper depth) (deeper depth) r r' :=
    Prog.follows_ite (fun _ => Prog.follows_fail) fun _ => Prog.follows_pure h
  unfold body
  dsimp only
  split
  case h_1 | h_2 =>
    exact Prog.follows_ite (fun _ => Prog.follows_pure h) fun _ => Prog.follows_fail
  case h_3 => exact goes_intValue h _
  case h_4 => exact goes_floatValue h _
  case h_5 => exact goes_strValue h _
  case h_6 => exact goes_rawValue h _
  case h_7 =>
    refine Prog.follows_ite (fun _ => ?_) fun _ => Prog.follows_fail
    refine Prog.follows_bind hdeeper fun next s s' hnext hs => ?_
    obtain ⟨hlt, rfl, -⟩ := deeper_eq_ok.mp hnext
    exact goes_container Value.list hs fun _ _ hle =>
      goes_itemLoop helement (hstop hlt) hs hle []
  case h_8 =>
    refine Prog.follows_ite (fun _ => ?_) fun _ => Prog.follows_fail
    refine Prog.follows_bind hdeeper fun next s s' hnext hs => ?_
    obtain ⟨hlt, rfl, -⟩ := deeper_eq_ok.mp hnext
    exact goes_container Value.dict hs fun _ _ hle =>
      goes_entryLoop helement (hstop hlt) hs hle []
  case h_9 | h_10 => exact Prog.follows_fail

/-- Without a byte there is no element. -/
theorem value_of_rest_eq_nil (frames depth : Nat) (hr : r.rest = []) :
    value (frames + 1) depth r = some (.error .truncated) := by
  refine Prog.bind_of_error ?_ _
  simp [byte, Prog.bind_of_ok (Prog.get_apply r), getElem?_pos, hr]

theorem goes_value {frames depth : Nat} (hframes : maxNesting < frames + depth)
    (h : Ahead more strict strict' r r') :
    Goes more strict strict' (value frames depth) (value frames depth) r r' := by
  induction frames generalizing depth r r' with
  | zero => exact Prog.follows_outOfFuel
  | succ frames ih =>
    refine Prog.follows_bind (goes_byte h) fun header s s' _ hs => ?_
    refine goes_body (fun t t' ht => ih (by omega) ht) (fun hlt t ht => ?_) hs header
    obtain ⟨count, rfl⟩ : ∃ count, frames = count + 1 := ⟨frames - 1, by omega⟩
    exact value_of_rest_eq_nil count (depth + 1) ht

/-! ## The decoders -/

theorem ahead_start (input : Bytes) (hrelaxes : strict' → strict) :
    Ahead more strict strict' ⟨input, 0, strict⟩ ⟨input ++ more, 0, strict'⟩ :=
  ⟨rfl, rfl, Nat.zero_le _, rfl, rfl, hrelaxes⟩

/-- Without more bytes the decoders are compared to their end. -/
theorem decode_relaxed (input : Bytes) (hrelaxes : strict' → strict) :
    decode strict' input = decode strict input ∨
      ∃ e, decode strict input = .error e ∧ strict ≠ strict' ∧ e.isFormal := by
  have hgo : Goes [] strict strict' readOne readOne ⟨input, 0, strict⟩ ⟨input, 0, strict'⟩ := by
    have hstart : Ahead [] strict strict' ⟨input, 0, strict⟩ ⟨input ++ [], 0, strict'⟩ :=
      ahead_start input hrelaxes
    rw [List.append_nil] at hstart
    have hvalue : Goes [] strict strict' (value (maxNesting + 1) 0) (value (maxNesting + 1) 0)
        ⟨input, 0, strict⟩ ⟨input, 0, strict'⟩ := goes_value (by omega) hstart
    refine Prog.follows_bind hvalue fun v s s' _ hs => ?_
    have heq : s'.remaining = s.remaining := hs.remaining_eq
    refine Prog.follows_get_bind ?_
    rw [heq]
    exact Prog.follows_ite (fun _ => Prog.follows_pure hs) fun _ => Prog.follows_fail
  refine (hgo.answer (halts_readOne _) (halts_readOne _)).imp_right ?_
  rintro ⟨e, he, hexcuse⟩
  obtain ⟨hmore, -⟩ | ⟨hne, hformal⟩ := hexcuse
  · exact absurd rfl hmore
  · exact ⟨e, he, hne, hformal⟩

/-- The lenient decoder does not speak of the canonical form. -/
theorem not_isFormal_of_lenient {input : Bytes} {e : Error} (h : decode false input = .error e) :
    ¬ e.isFormal := by
  obtain ⟨e', hvalue⟩ | ⟨v, s, hvalue⟩ := value_cases false input
  · obtain rfl : e' = e := by simpa [decode_of_value_error hvalue] using h
    exact fun hformal => Bool.false_ne_true ((value_start_eq_error.mp hvalue).isInside.1 hformal)
  · rw [decode_of_value_ok hvalue] at h
    split_ifs at h
    obtain rfl : .trailingBytes s.remaining = e := by simpa using h
    exact Bool.false_ne_true

/-- Strict mode adds the four violations of the canonical form to what is refused, and nothing
else: where it answers otherwise than the lenient decoder it answers with one of them, and the
lenient decoder never does. -/
theorem canonical_refines_lenient (input : Bytes) :
    (fromBytesCanonical input = fromBytes input ∨
      ∃ e, fromBytesCanonical input = .error e ∧ e.isFormal) ∧
    ∀ e, fromBytes input = .error e → ¬ e.isFormal := by
  rw [← decode_false, ← decode_true]
  refine ⟨?_, fun e he hformal => ?_⟩
  · have hrelaxed : decode false input = decode true input ∨
        ∃ e, decode true input = .error e ∧ true ≠ false ∧ e.isFormal :=
      decode_relaxed input (by simp)
    obtain heq | ⟨e, he, -, hformal⟩ := hrelaxed
    · exact .inl heq.symm
    · exact .inr ⟨e, he, hformal⟩
  · exact not_isFormal_of_lenient he hformal

/-- The first object of an input is read from more bytes as it is read from the input, unless the
input is used up. -/
theorem value_extended (strict : Bool) (input more : Bytes) :
    (∃ e, decode strict input = .error e ∧ e.isExhausted) ∨
    (∃ e, decode strict input = .error e ∧ decode strict (input ++ more) = .error e ∧
      ∀ left, e ≠ .trailingBytes left) ∨
    ∃ v left,
      decode strict input = (if left = 0 then .ok v else .error (.trailingBytes left)) ∧
      decode strict (input ++ more) = (if left + more.length = 0 then .ok v else
        .error (.trailingBytes (left + more.length))) := by
  have hgo : Goes more strict strict (value (maxNesting + 1) 0) (value (maxNesting + 1) 0)
      ⟨input, 0, strict⟩ ⟨input ++ more, 0, strict⟩ := goes_value (by omega) (ahead_start input id)
  obtain ⟨e, hvalue⟩ | ⟨v, s, hvalue⟩ := value_cases strict input
  · have hinput := decode_of_value_error hvalue
    obtain hexcuse | hmore := hgo.fails e hvalue
    · obtain ⟨-, hexhausted⟩ | ⟨hne, -⟩ := hexcuse
      · exact .inl ⟨e, hinput, hexhausted⟩
      · exact absurd rfl hne
    · have hinside := (value_start_eq_error.mp hvalue).isInside
      exact .inr (.inl ⟨e, hinput, decode_of_value_error hmore, hinside.2⟩)
  · obtain ⟨s', hmore, hahead⟩ := hgo.returns v s hvalue
    refine .inr (.inr ⟨v, s.remaining, decode_of_value_ok hvalue, ?_⟩)
    rw [decode_of_value_ok hmore, hahead.remaining_eq]

/-- What more bytes behind an input change. An object becomes one with trailing bytes, trailing
bytes become more of them, and every other refusal stands, but for those of an input that ended too
early; these are the answers to all that is cut off from an object. -/
theorem cut_and_extend (strict : Bool) (input more : Bytes) (hmore : more ≠ []) :
    (∀ v, decode strict input = .ok v →
      decode strict (input ++ more) = .error (.trailingBytes more.length)) ∧
    (∀ left, decode strict input = .error (.trailingBytes left) →
      decode strict (input ++ more) = .error (.trailingBytes (left + more.length))) ∧
    (∀ e, decode strict input = .error e → ¬ e.isExhausted → (∀ left, e ≠ .trailingBytes left) →
      decode strict (input ++ more) = .error e) ∧
    ∀ v, decode strict (input ++ more) = .ok v →
      ∃ e, decode strict input = .error e ∧ e.isExhausted := by
  have hpos : 0 < more.length := List.length_pos_iff.mpr hmore
  obtain ⟨e, he, hexhausted⟩ | ⟨e, he, he', hinside⟩ | ⟨v, left, hv, hv'⟩ :=
    value_extended strict input more
  · rw [he]
    refine ⟨by simp, fun left h => ?_, fun e' h hnot => ?_, fun _ _ => ⟨e, rfl, hexhausted⟩⟩
    · obtain rfl : e = .trailingBytes left := by simpa using h
      exact absurd hexhausted (by simp [Error.isExhausted])
    · obtain rfl : e = e' := by simpa using h
      exact absurd hexhausted hnot
  · rw [he, he']
    refine ⟨by simp, fun left h => ?_, fun e' h _ _ => h, by simp⟩
    exact absurd (by simpa using h) (hinside left)
  · rw [hv, hv', if_neg (show left + more.length ≠ 0 by omega)]
    refine ⟨fun w h => ?_, fun count h => ?_, fun e h _ hnot => ?_, by simp⟩
    · split_ifs at h with hleft
      rw [hleft, Nat.zero_add]
    · split_ifs at h
      obtain rfl : left = count := by simpa using h
      rfl
    · split_ifs at h
      obtain rfl : .trailingBytes left = e := by simpa using h
      exact absurd rfl (hnot left)

/-- A null with a byte behind it, and a list whose sentinel is cut off. -/
theorem cut_and_extend_null :
    decode false [0x00, 0x00] = .error (.trailingBytes 1) ∧
      ∃ e, decode true [0x60, 0x00] = .error e ∧ e.isExhausted := by
  have hnull : decode false [0x00] = .ok .null := decode_eq_ok.mpr ⟨.null, by decide⟩
  have hlist : decode true [0x60, 0x00, 0x80] = .ok (.list [.null]) :=
    decode_eq_ok.mpr ⟨.list (.cons .null .nil), by decide⟩
  exact ⟨(cut_and_extend false [0x00] [0x00] (by simp)).1 .null hnull,
    (cut_and_extend true [0x60, 0x00] [0x80] (by simp)).2.2.2 _ hlist⟩

end Onestein.Bdf
