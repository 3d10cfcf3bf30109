import Onestein.Lib.Bytes
import Onestein.Lib.Fallible
import Onestein.Lib.Regroup

/-!
# Base32

Upper case, without padding. Both directions regroup bits through a 32-bit buffer: eight bits are
read for every five that are written, or the other way round.

## Main definitions

* `encode`, `decode` — from bytes to text and back.
* `normalised` — a text without white space, in upper case.
* `Spells` — symbols that are some bytes and some zero bits.

## Main results

* `encode_padded` — an encoding has fewer zero bits than a symbol.
* `decode_eq_ok_iff` — which texts are decoded: those with fewer zero bits than a byte.
* `encode_decode_iff` — when a decoded text is the one that would be encoded.
-/

namespace Onestein.Contact.Base32

def alphabet : Bytes := Bytes.utf8 "ABCDEFGHIJKLMNOPQRSTUVWXYZ234567"

/-- Why a string is not base32. -/
inductive Error where
  | notBase32 (found : Char)
  | nonCanonicalTail
  deriving DecidableEq

/-- What was written, and the buffer with the bits in it that were not written yet. -/
structure Buffered (α : Type) where
  out : List α
  buffer : UInt32
  bits : Nat

/-! ## Encoding -/

def symbol (value : UInt32) : Char :=
  Char.ofNat (alphabet.getD value.toNat 0).toNat

/-- `while bits >= 5`: the first five bits of the buffer are written. -/
def writeSymbols (buffer : UInt32) : Nat → List Char → Buffered Char
  | bits + 5, out =>
    writeSymbols buffer bits (out ++ [symbol ((buffer >>> UInt32.ofNat bits) &&& 0x1f)])
  | bits, out => ⟨out, buffer, bits⟩

def encodeByte (state : Buffered Char) (byte : UInt8) : Buffered Char :=
  writeSymbols (state.buffer <<< 8 ||| byte.toUInt32) (state.bits + 8) state.out

/-- Encodes bytes, upper case, without padding. -/
def encode (bytes : Bytes) : String :=
  let state := bytes.foldl encodeByte ⟨[], 0, 0⟩
  -- The last group is padded with zero bits.
  if 0 < state.bits then
    String.ofList
      (state.out ++ [symbol ((state.buffer <<< UInt32.ofNat (5 - state.bits)) &&& 0x1f)])
  else String.ofList state.out

/-! ## Decoding -/

/-- The characters that have the Unicode property `White_Space`. -/
def isWhitespace (character : Char) : Bool :=
  let code := character.toNat
  9 ≤ code && code ≤ 13 || code = 0x20 || code = 0x85 || code = 0xa0 || code = 0x1680 ||
    0x2000 ≤ code && code ≤ 0x200a || code = 0x2028 || code = 0x2029 || code = 0x202f ||
    code = 0x205f || code = 0x3000

/-- The position of a character in the alphabet, in either case. -/
def valueOf (character : Char) : Option Nat :=
  let upper := character.toUpper
  if upper.toNat < 256 then alphabet.idxOf? (UInt8.ofNat upper.toNat) else none

def decodeChar (state : Buffered UInt8) (character : Char) : Except Error (Buffered UInt8) :=
  if isWhitespace character then .ok state
  else do
    let value ← (valueOf character).okOr (.notBase32 character)
    let buffer := state.buffer <<< 5 ||| UInt32.ofNat value
    let bits := state.bits + 5
    if 8 ≤ bits then
      .ok ⟨state.out ++ [((buffer >>> UInt32.ofNat (bits - 8)) &&& 0xff).toUInt8], buffer, bits - 8⟩
    else .ok ⟨state.out, buffer, bits⟩

/-- Decodes a string, accepting lower case and ignoring white space. -/
def decode (text : String) : Except Error Bytes := do
  let state ← text.toList.foldlM decodeChar ⟨[], 0, 0⟩
  -- Anything left over must be the zero bits the encoder padded with.
  if 0 < state.bits ∧ state.buffer &&& ((1 <<< UInt32.ofNat state.bits) - 1) ≠ 0 then
    .error .nonCanonicalTail
  else .ok state.out

/-! ## Both directions as a regrouping -/

open Regroup

/-- The characters that are not white space, in upper case. -/
def significant (text : List Char) : List Char :=
  (text.filter (fun character => !isWhitespace character)).map Char.toUpper

/-- A text without white space, in upper case. -/
def normalised (text : String) : String := String.ofList (significant text.toList)

/-- The symbol of a digit. -/
def digitSymbol (digit : Nat) : Char := symbol (UInt32.ofNat digit)

/-- The symbols are those of the bytes and of `pad` zero bits. -/
def Spells (symbols : List Char) (bytes : Bytes) (pad : Nat) : Prop :=
  ∃ digits, symbols = digits.map digitSymbol ∧
    Padded 8 5 (bytes.map UInt8.toNat) digits pad

theorem symbol_eq_digitSymbol (value : UInt32) : symbol value = digitSymbol value.toNat := by
  rw [digitSymbol, UInt32.ofNat_toNat]

theorem Spells.length_eq {symbols : List Char} {bytes : Bytes} {pad : Nat}
    (h : Spells symbols bytes pad) : 5 * symbols.length = 8 * bytes.length + pad := by
  obtain ⟨digits, rfl, hpadded⟩ := h
  simpa using hpadded.length_eq

/-- The bytes and the padding determine the symbols. -/
theorem Spells.unique {symbols symbols' : List Char} {bytes : Bytes} {pad : Nat}
    (h : Spells symbols bytes pad) (h' : Spells symbols' bytes pad) : symbols = symbols' := by
  obtain ⟨digits, rfl, hpadded⟩ := h
  obtain ⟨digits', rfl, hpadded'⟩ := h'
  rw [hpadded.unique (by decide) hpadded']

/-- What the encoder has written after some bytes. -/
def Encoding (bytes : Bytes) (state : Buffered Char) : Prop :=
  ∃ digits, state.out = digits.map digitSymbol ∧
    Held 8 5 (bytes.map UInt8.toNat) digits state.buffer state.bits ∧ state.bits < 5

theorem writeSymbols_encoding {bytes : Bytes} {buffer : UInt32} {bits : Nat} {out : List Char}
    {digits : List Nat} (hout : out = digits.map digitSymbol) (hbits : bits < 32)
    (h : Held 8 5 (bytes.map UInt8.toNat) digits buffer bits) :
    Encoding bytes (writeSymbols buffer bits out) := by
  fun_induction writeSymbols buffer bits out generalizing digits with
  | case1 bits out ih =>
    have hwritten : out ++ [symbol ((buffer >>> UInt32.ofNat bits) &&& 0x1f)] =
        (digits ++ [((buffer >>> UInt32.ofNat bits) &&& 0x1f).toNat]).map digitSymbol := by
      simp [hout, symbol_eq_digitSymbol]
    exact ih hwritten (by omega) (h.shift (by omega) rfl)
  | case2 bits out hnone =>
    have hlt : bits < 5 := by
      by_contra hle
      exact hnone (bits - 5) (by omega)
    exact ⟨digits, hout, h, hlt⟩

/-- One more byte is encoded. -/
theorem encodeByte_encoding {bytes : Bytes} {state : Buffered Char} (byte : UInt8)
    (h : Encoding bytes state) : Encoding (bytes ++ [byte]) (encodeByte state byte) := by
  obtain ⟨digits, hout, hheld, hbits⟩ := h
  apply writeSymbols_encoding hout (by omega)
  have hpush := hheld.push (d := byte.toUInt32) (by decide) (by omega)
    (by simpa using byte.toNat_lt)
  simpa using hpush

theorem foldl_encoding {bytes : Bytes} {state : Buffered Char} (h : Encoding bytes state)
    (more : Bytes) : Encoding (bytes ++ more) (more.foldl encodeByte state) := by
  induction more generalizing bytes state with
  | nil => simpa using h
  | cons byte more ih => simpa using ih (encodeByte_encoding byte h)

/-- The symbols are the bytes and less than one symbol of zero bits. -/
theorem encode_padded (bytes : Bytes) :
    ∃ pad < 5, Spells (encode bytes).toList bytes pad := by
  have hnil : Encoding [] ⟨[], 0, 0⟩ := ⟨[], rfl, Regrouped.nil, by decide⟩
  obtain ⟨digits, hout, hheld, hbits⟩ := foldl_encoding hnil bytes
  rw [encode]
  generalize bytes.foldl encodeByte ⟨[], 0, 0⟩ = state at hout hheld hbits ⊢
  split
  case isTrue hpos =>
    refine ⟨5 - state.bits, by omega, _, ?_, Regrouped.pad hheld hbits.le⟩
    rw [String.toList_ofList, symbol_eq_digitSymbol,
      toNat_shiftLeft_and hbits.le (by decide) rfl, hout]
    simp
  case isFalse hzero =>
    have hbits : state.bits = 0 := by omega
    rw [hbits] at hheld
    exact ⟨0, by decide, digits, by simpa using hout, Regrouped.padded hheld⟩

/-- What holds of the symbols of all digits holds of what is written. -/
theorem forall_mem_encode {bytes : Bytes} {p : Char → Prop}
    (h : ∀ digit < 32, p (digitSymbol digit)) :
    ∀ character ∈ (encode bytes).toList, p character := by
  obtain ⟨pad, -, digits, hsymbols, hpadded⟩ := encode_padded bytes
  rw [hsymbols, List.forall_mem_map]
  exact fun digit hdigit => h digit (hpadded.es_lt digit hdigit)

/-! ### Decoding -/

/-- The symbols are in the alphabet, under the value that is read for them. -/
theorem valueOf_eq_some {character : Char} {value : Nat} (h : valueOf character = some value) :
    value < 32 ∧ character.toUpper = digitSymbol value := by
  rw [valueOf] at h
  split at h
  case isFalse => simp at h
  case isTrue hbyte =>
    obtain ⟨hlt, hbeq, -⟩ := List.idxOf?_eq_some_iff.mp h
    have hvalue : value < 32 := hlt
    constructor
    · exact hvalue
    · rw [digitSymbol, symbol, toNat_ofNat hvalue, List.getD_eq_getElem _ _ hlt, hbeq,
        UInt8.toNat_ofNat_of_lt' hbyte, Char.ofNat_toNat]

/-- A symbol has the value of its digit, in either case. -/
theorem valueOf_of_toUpper {character : Char} {value : Nat} (hvalue : value < 32)
    (h : character.toUpper = digitSymbol value) : valueOf character = some value := by
  have hall : ∀ digit < 32, (digitSymbol digit).toNat < 256 ∧
      alphabet.idxOf? (UInt8.ofNat (digitSymbol digit).toNat) = some digit := by decide
  obtain ⟨hbyte, hindex⟩ := hall value hvalue
  rw [valueOf, h]
  exact (if_pos hbyte).trans hindex

/-- What the decoder has written after some symbols. -/
def Decoding (symbols : List Char) (state : Buffered UInt8) : Prop :=
  ∃ digits, symbols = digits.map digitSymbol ∧ (∀ digit ∈ digits, digit < 2 ^ 5) ∧
    Held 5 8 digits (state.out.map UInt8.toNat) state.buffer state.bits ∧ state.bits < 8

theorem significant_cons (character : Char) (text : List Char) :
    significant (character :: text) = significant [character] ++ significant text := by
  rw [significant, significant, significant, ← List.map_append, ← List.filter_append,
    List.singleton_append]

/-- One more character is decoded. -/
theorem decodeChar_decoding {symbols : List Char} {state state' : Buffered UInt8}
    {character : Char} (hinv : Decoding symbols state)
    (h : decodeChar state character = .ok state') :
    Decoding (symbols ++ significant [character]) state' := by
  rw [decodeChar] at h
  split at h
  case isTrue hspace =>
    cases h
    simpa [significant, hspace] using hinv
  case isFalse hspace =>
    obtain ⟨value, hvalue, h⟩ := Except.bind_eq_ok.mp h
    obtain ⟨hlt, hsymbol⟩ := valueOf_eq_some (Option.okOr_eq_ok.mp hvalue)
    obtain ⟨digits, rfl, hdigits, hheld, hbits⟩ := hinv
    have hindex : (UInt32.ofNat value).toNat = value := toNat_ofNat hlt
    have hpush := hheld.push (d := UInt32.ofNat value) (by decide) (by omega) (by omega)
    rw [hindex] at hpush
    have hsymbols : digits.map digitSymbol ++ significant [character] =
        (digits ++ [value]).map digitSymbol := by
      simp [significant, hspace, hsymbol]
    have hall : ∀ digit ∈ digits ++ [value], digit < 2 ^ 5 :=
      forall_mem_concat.mpr ⟨hdigits, hlt⟩
    dsimp only at h
    split at h
    case isTrue hfull =>
      cases h
      have hbits : state.bits + 5 = state.bits + 5 - 8 + 8 := by omega
      rw [hbits] at hpush
      have hmask : (0xff : UInt32).toNat = 2 ^ 8 - 1 := rfl
      have hshift := hpush.shift (by omega) hmask
      refine ⟨digits ++ [value], hsymbols, hall, ?_, by grind⟩
      rw [List.map_append, List.map_singleton, UInt32.toNat_toUInt8,
        Nat.mod_eq_of_lt (hshift.out_lt _ (by simp))]
      exact hshift
    case isFalse hpartial =>
      cases h
      exact ⟨digits ++ [value], hsymbols, hall, hpush, by grind⟩

theorem foldlM_decoding {symbols text : List Char} {state state' : Buffered UInt8}
    (hinv : Decoding symbols state) (h : text.foldlM decodeChar state = .ok state') :
    Decoding (symbols ++ significant text) state' := by
  induction text generalizing symbols state with
  | nil =>
    cases h
    simpa [significant] using hinv
  | cons character text ih =>
    rw [List.foldlM_cons] at h
    obtain ⟨next, hnext, h⟩ := Except.bind_eq_ok.mp h
    rw [significant_cons, ← List.append_assoc]
    exact ih (decodeChar_decoding hinv hnext) h

/-- The symbols that were decoded are the bytes and less than one byte of zero bits. -/
theorem decode_padded {text : String} {bytes : Bytes} (h : decode text = .ok bytes) :
    ∃ pad < 8, Spells (normalised text).toList bytes pad := by
  have hnil : Decoding [] ⟨[], 0, 0⟩ := ⟨[], rfl, by simp, Regrouped.nil, by decide⟩
  obtain ⟨state, hstate, h⟩ := Except.bind_eq_ok.mp h
  obtain ⟨digits, hsymbols, hdigits, hheld, hbits⟩ := foldlM_decoding hnil hstate
  split at h
  case isTrue => cases h
  case isFalse htail =>
    cases h
    have hrest : state.buffer.toNat % 2 ^ state.bits = 0 := by
      rcases Nat.eq_zero_or_pos state.bits with hzero | hpos
      · rw [hzero, Nat.pow_zero, Nat.mod_one]
      · rw [← and_mask_eq_zero (by omega)]
        by_contra hne
        exact htail ⟨hpos, hne⟩
    rw [Held, hrest] at hheld
    exact ⟨state.bits, hbits, digits, by simpa [normalised] using hsymbols,
      hheld.padded_in hdigits⟩

theorem exists_foldlM_decodeChar {text : List Char}
    (h : ∀ character ∈ text, isWhitespace character ∨ (valueOf character).isSome)
    (state : Buffered UInt8) : ∃ state', text.foldlM decodeChar state = .ok state' := by
  induction text generalizing state with
  | nil => exact ⟨state, rfl⟩
  | cons character text ih =>
    rw [List.forall_mem_cons] at h
    obtain ⟨hfirst, hrest⟩ := h
    obtain ⟨next, hnext⟩ : ∃ next, decodeChar state character = .ok next := by
      rw [decodeChar]
      split
      case isTrue => exact ⟨state, rfl⟩
      case isFalse hspace =>
        obtain ⟨value, hvalue⟩ := Option.isSome_iff_exists.mp (hfirst.resolve_left hspace)
        rw [hvalue, Option.okOr_some, Except.ok_bind]
        dsimp only
        split <;> exact ⟨_, rfl⟩
    obtain ⟨last, hlast⟩ := ih hrest next
    refine ⟨last, ?_⟩
    rw [List.foldlM_cons, hnext]
    exact hlast

theorem mem_significant {text : List Char} {character : Char} (h : character ∈ text)
    (hspace : ¬ isWhitespace character) : character.toUpper ∈ significant text :=
  List.mem_map_of_mem (List.mem_filter.mpr ⟨h, by simpa using hspace⟩)

/-- The digits of symbols are determined. -/
theorem map_digitSymbol_injective {digits digits' : List Nat} (h : ∀ digit ∈ digits, digit < 32)
    (h' : ∀ digit ∈ digits', digit < 32)
    (heq : digits.map digitSymbol = digits'.map digitSymbol) : digits = digits' := by
  have hupper : ∀ digit < 32, (digitSymbol digit).toUpper = digitSymbol digit := by decide
  have hvalues {ds : List Nat} (hds : ∀ digit ∈ ds, digit < 32) :
      (ds.map digitSymbol).map valueOf = ds.map some := by
    rw [List.map_map]
    apply List.map_congr_left
    intro digit hdigit
    exact valueOf_of_toUpper (hds digit hdigit) (hupper digit (hds digit hdigit))
  apply List.map_injective_iff.mpr (Option.some_injective Nat)
  rw [← hvalues h, ← hvalues h', heq]

/-- A text is decoded exactly if its symbols are the bytes and less than one byte of zero bits. -/
theorem decode_eq_ok_iff {text : String} {bytes : Bytes} :
    decode text = .ok bytes ↔ ∃ pad < 8, Spells (normalised text).toList bytes pad := by
  refine ⟨decode_padded, ?_⟩
  rintro ⟨pad, hpad, digits, hsymbols, hpadded⟩
  rw [normalised, String.toList_ofList] at hsymbols
  have hread : ∀ character ∈ text.toList, isWhitespace character ∨ (valueOf character).isSome := by
    intro character hmem
    by_cases hspace : isWhitespace character
    · exact .inl hspace
    · have hsymbol := mem_significant hmem hspace
      rw [hsymbols] at hsymbol
      obtain ⟨digit, hdigit, heq⟩ := List.mem_map.mp hsymbol
      rw [valueOf_of_toUpper (hpadded.es_lt digit hdigit) heq.symm]
      exact .inr rfl
  obtain ⟨state, hstate⟩ := exists_foldlM_decodeChar hread ⟨[], 0, 0⟩
  have hnil : Decoding [] ⟨[], 0, 0⟩ := ⟨[], rfl, by simp, Regrouped.nil, by decide⟩
  obtain ⟨digits', hsymbols', hdigits', hheld, hbits⟩ := foldlM_decoding hnil hstate
  rw [List.nil_append, hsymbols] at hsymbols'
  obtain rfl := map_digitSymbol_injective hpadded.es_lt hdigits' hsymbols'
  have hbytes : ∀ byte ∈ bytes.map UInt8.toNat, byte < 2 ^ 8 := by
    simp only [List.forall_mem_map]
    exact fun byte _ => byte.toNat_lt
  obtain ⟨hout, hrest⟩ := hheld.eq_of_padded hbits hpad hbytes hpadded
  have htail : ¬ (0 < state.bits ∧
      state.buffer &&& ((1 <<< UInt32.ofNat state.bits) - 1) ≠ 0) := by
    rw [not_and_not_right]
    exact fun _ => (and_mask_eq_zero (by omega)).mpr hrest
  rw [decode, hstate, Except.ok_bind, if_neg htail,
    List.map_injective_iff.mpr (fun _ _ => UInt8.toNat_inj.mp) hout]

/-! ### One text for each byte string -/

/-- The bits behind the last byte are fewer than those of a symbol. -/
def NoSpareSymbol (text : String) : Prop := 5 * (normalised text).length % 8 < 5

instance (text : String) : Decidable (NoSpareSymbol text) := Nat.decLt _ _

theorem noSpareSymbol_iff {text : String} {bytes : Bytes} {pad : Nat} (hpad : pad < 8)
    (h : Spells (normalised text).toList bytes pad) : NoSpareSymbol text ↔ pad < 5 := by
  have hlength := h.length_eq
  rw [String.length_toList] at hlength
  rw [NoSpareSymbol, hlength, Nat.mul_add_mod, Nat.mod_eq_of_lt hpad]

/-- A decoded text is the one that is encoded exactly if it has no spare symbol, and two texts of
the same bytes are the same up to case and white space exactly if none or both have one. -/
theorem encode_decode_iff {text : String} {bytes : Bytes} (h : decode text = .ok bytes) :
    (encode bytes = normalised text ↔ NoSpareSymbol text) ∧
      ∀ other, decode other = .ok bytes →
        (normalised text = normalised other ↔ (NoSpareSymbol text ↔ NoSpareSymbol other)) := by
  obtain ⟨pad, hpad, hspells⟩ := decode_padded h
  have htext := noSpareSymbol_iff hpad hspells
  have hlength := hspells.length_eq
  constructor
  · obtain ⟨pad', hpad', hencoded⟩ := encode_padded bytes
    have hlength' := hencoded.length_eq
    rw [htext]
    constructor
    · intro heq
      rw [heq] at hlength'
      omega
    · intro hlt
      have hsame : pad' = pad := by omega
      rw [hsame] at hencoded
      exact String.toList_injective (hencoded.unique hspells)
  · intro other hother
    obtain ⟨pad', hpad', hspells'⟩ := decode_padded hother
    have hother := noSpareSymbol_iff hpad' hspells'
    have hlength' := hspells'.length_eq
    constructor
    · intro heq
      rw [NoSpareSymbol, NoSpareSymbol, heq]
    · intro hboth
      rw [htext, hother] at hboth
      have hsame : pad' = pad := by omega
      rw [hsame] at hspells'
      exact String.toList_injective (hspells.unique hspells')

/-- Where the zero bits of less than a byte are less than a symbol, bytes have one text. -/
theorem decode_eq_ok_iff_normalised {text : String} {bytes : Bytes}
    (h : 8 * bytes.length % 5 = 1 ∨ 8 * bytes.length % 5 = 2) :
    decode text = .ok bytes ↔ normalised text = encode bytes := by
  rw [decode_eq_ok_iff]
  obtain ⟨pad', hpad', hencoded⟩ := encode_padded bytes
  constructor
  · rintro ⟨pad, hpad, hspells⟩
    have hlength := hspells.length_eq
    have hlength' := hencoded.length_eq
    have hsame : pad = pad' := by omega
    rw [hsame] at hspells
    exact String.toList_injective (hspells.unique hencoded)
  · intro heq
    rw [heq]
    exact ⟨pad', by omega, hencoded⟩

/-- A link that was reflowed on the way. -/
theorem encode_decode_iff_reflowed :
    decode "mzxw 6" = .ok [0x66, 0x6f, 0x6f] ∧ NoSpareSymbol "mzxw 6" ∧
      (encode [0x66, 0x6f, 0x6f] = normalised "mzxw 6" ↔ NoSpareSymbol "mzxw 6") := by
  have h : decode "mzxw 6" = .ok [0x66, 0x6f, 0x6f] := by decide
  exact ⟨h, by decide, (encode_decode_iff h).1⟩

/-- A single symbol whose bits are all zero is read, but it is not written. -/
theorem decode_spare_symbol :
    ¬ ∀ text bytes, decode text = .ok bytes → encode bytes = normalised text := by
  intro hall
  have h := hall "A" [] (by decide)
  revert h
  decide

end Onestein.Contact.Base32
