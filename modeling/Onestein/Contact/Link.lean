import Onestein.Contact.Bundle

/-!
# Contact links

A link is a prefix and 64 bytes in base32, which is 103 symbols. On its way through other channels
it is reflowed: white space is put in, and letters change case.

## Main definitions

* `ContactLink.toText`, `ContactLink.parse` — from links to text and back.
* `Reflows` — a text as another channel may return it.
* `ContactLink.Reflowed` — a text that is the link but for white space and the case of letters.
* `PrefixWhole` — nothing was put inside the prefix.
* `straightened` — a text without white space, in upper case behind the prefix.

## Main results

* `ContactLink.parse_eq_ok` — which texts are read as a link.
* `ContactLink.parse_reflowed_iff` — when a reflowed link is read.
* `ContactLink.one_spelling` — a link has one text, up to white space and case.
-/

namespace Onestein.Contact

open Crypto
open Base32 (isWhitespace significant normalised)

/-- The start of a contact link. -/
def linkPrefix : String := "onestein:1:"

/-- A contact link, as it is pasted into some other channel. -/
structure ContactLink where
  contactKey : Octets contactKeyLen
  commitment : Digest
  deriving DecidableEq

/-- A text without the white space at both of its ends. -/
def trim (text : String) : String :=
  String.ofList ((text.toList.dropWhile isWhitespace).rdropWhile isWhitespace)

/-- What follows a text that starts another. -/
def stripPrefix (text start : String) : Option String :=
  (text.toList.dropPrefix? start.toList).map String.ofList

namespace ContactLink

/-- The bytes that are rendered. -/
def payload (link : ContactLink) : Bytes := link.contactKey.toList ++ link.commitment.toList

/-- Renders the link. -/
def toText (link : ContactLink) : String := linkPrefix ++ Base32.encode link.payload

/-- Reads a link, accepting lower case and white space. -/
def parse (text : String) : Except Error ContactLink := do
  let payload ← (stripPrefix (trim text) linkPrefix).okOr .notALink
  let bytes ← (Base32.decode payload).mapError .notBase32
  if bytes.length ≠ contactKeyLen + hashLen then .error .malformed else
  .ok {
    contactKey := ← sized contactKeyLen (bytes.take contactKeyLen)
    commitment := ← sized hashLen (bytes.drop contactKeyLen) }

end ContactLink

/-! ## Trimming -/

section Trim

variable {α : Type*} {p : α → Bool} {start text : List α}

/-- Trimming stops at characters that are not trimmed. -/
theorem trim_append {gap : List α} (rest : List α) (hgap : ∀ c ∈ gap, p c) (hne : start ≠ [])
    (hfirst : start.dropWhile p = start) (hlast : start.rdropWhile p = start) :
    ((gap ++ (start ++ rest)).dropWhile p).rdropWhile p = start ++ rest.rdropWhile p := by
  have hreverse : start.reverse.dropWhile p = start.reverse := List.reverse_eq_iff.mp hlast
  have hdrop : (start ++ rest).dropWhile p = start ++ rest := by
    rw [List.dropWhile_append, hfirst, List.isEmpty_eq_false_iff.mpr hne, if_neg Bool.false_ne_true]
  rw [List.dropWhile_append_of_pos hgap, hdrop, List.rdropWhile, List.rdropWhile,
    List.reverse_append, List.dropWhile_append, hreverse]
  split
  case isTrue hempty =>
    rw [List.isEmpty_iff.mp hempty]
    simp
  case isFalse => simp

/-- What is trimmed is trimmed at the ends. -/
theorem exists_trim (p : α → Bool) (text : List α) : ∃ gap tail, (∀ c ∈ gap, p c) ∧
    (∀ c ∈ tail, p c) ∧ text = gap ++ ((text.dropWhile p).rdropWhile p ++ tail) := by
  refine ⟨text.takeWhile p, (text.dropWhile p).rtakeWhile p, fun c => List.mem_takeWhile_imp,
    fun c => List.mem_rtakeWhile_imp, ?_⟩
  rw [List.rdropWhile_append_rtakeWhile, List.takeWhile_append_dropWhile]

end Trim

theorem significant_append (text rest : List Char) :
    significant (text ++ rest) = significant text ++ significant rest := by
  simp [significant]

theorem significant_eq_nil {text : List Char} (h : ∀ c ∈ text, isWhitespace c) :
    significant text = [] := by
  simpa [significant] using h

theorem significant_rdropWhile (text : List Char) :
    significant (text.rdropWhile isWhitespace) = significant text := by
  have htail : ∀ c ∈ text.rtakeWhile isWhitespace, isWhitespace c :=
    fun _ => List.mem_rtakeWhile_imp
  have hsplit : text.rdropWhile isWhitespace ++ text.rtakeWhile isWhitespace = text :=
    List.rdropWhile_append_rtakeWhile
  calc significant (text.rdropWhile isWhitespace)
      = significant (text.rdropWhile isWhitespace) ++
          significant (text.rtakeWhile isWhitespace) := by
        rw [significant_eq_nil htail, List.append_nil]
    _ = significant text := by rw [← significant_append, hsplit]

theorem stripPrefix_eq_some {text start rest : String} :
    stripPrefix text start = some rest ↔ text.toList = start.toList ++ rest.toList := by
  simp only [stripPrefix, Option.map_eq_some_iff, List.dropPrefix?_eq_some_iff, beq_iff_eq,
    exists_eq_right]
  constructor
  · rintro ⟨symbols, h, rfl⟩
    rw [h, String.toList_ofList]
  · intro h
    exact ⟨rest.toList, h, String.ofList_toList⟩

/-! ## Texts that are read -/

/-- Behind white space the prefix is whole: nothing was put inside, and its letters are as they
were. -/
def PrefixWhole (text : String) : Prop :=
  ∃ gap rest, (∀ c ∈ gap, isWhitespace c) ∧ text.toList = gap ++ (linkPrefix.toList ++ rest)

/-- A payload is what follows the prefix in a trimmed text, up to white space. -/
theorem exists_stripPrefix_trim {text : String} {symbols : List Char} :
    (∃ payload, stripPrefix (trim text) linkPrefix = some payload ∧
      significant payload.toList = symbols) ↔
      ∃ gap rest, (∀ c ∈ gap, isWhitespace c) ∧
        text.toList = gap ++ (linkPrefix.toList ++ rest) ∧ significant rest = symbols := by
  simp only [stripPrefix_eq_some, trim, String.toList_ofList]
  constructor
  · rintro ⟨payload, htrim, hsymbols⟩
    obtain ⟨gap, tail, hgap, htail, htext⟩ := exists_trim isWhitespace text.toList
    rw [htrim, List.append_assoc] at htext
    refine ⟨gap, payload.toList ++ tail, hgap, htext, ?_⟩
    rw [significant_append, significant_eq_nil htail, List.append_nil, hsymbols]
  · rintro ⟨gap, rest, hgap, htext, hsymbols⟩
    refine ⟨String.ofList (rest.rdropWhile isWhitespace), ?_, ?_⟩
    · rw [htext, String.toList_ofList]
      exact trim_append rest hgap (by decide) (by decide) (by decide)
    · rw [String.toList_ofList, significant_rdropWhile, hsymbols]

theorem isSome_stripPrefix_trim {text : String} :
    (stripPrefix (trim text) linkPrefix).isSome ↔ PrefixWhole text := by
  rw [Option.isSome_iff_exists]
  constructor
  · intro ⟨payload, h⟩
    obtain ⟨gap, rest, hgap, htext, -⟩ := exists_stripPrefix_trim.mp ⟨payload, h, rfl⟩
    exact ⟨gap, rest, hgap, htext⟩
  · intro ⟨gap, rest, hgap, htext⟩
    obtain ⟨payload, h, -⟩ := exists_stripPrefix_trim.mpr ⟨gap, rest, hgap, htext, rfl⟩
    exact ⟨payload, h⟩

instance (text : String) : Decidable (PrefixWhole text) :=
  decidable_of_iff _ isSome_stripPrefix_trim

namespace ContactLink

variable {link : ContactLink} {text : String}

theorem length_payload (link : ContactLink) : link.payload.length = 64 := by
  rw [payload, List.length_append, Vector.length_toList, Vector.length_toList]
  rfl

/-- The bytes are taken apart again. -/
theorem sized_payload {bytes : Bytes} :
    bytes.length = contactKeyLen + hashLen ∧
      sized contactKeyLen (bytes.take contactKeyLen) = .ok link.contactKey ∧
      sized hashLen (bytes.drop contactKeyLen) = .ok link.commitment ↔ bytes = link.payload := by
  simp only [sized_eq_ok]
  constructor
  · rintro ⟨-, hkey, hcommitment⟩
    rw [payload, hkey, hcommitment, List.take_append_drop]
  · rintro rfl
    refine ⟨length_payload link, ?_, ?_⟩
    · rw [payload, List.take_left' Vector.length_toList]
    · rw [payload, List.drop_left' Vector.length_toList]

/-- A text is read as a link exactly if the link's symbols follow the prefix, which may follow
white space. -/
theorem parse_eq_ok : parse text = .ok link ↔
    ∃ gap rest, (∀ c ∈ gap, isWhitespace c) ∧ text.toList = gap ++ (linkPrefix.toList ++ rest) ∧
      significant rest = (Base32.encode link.payload).toList := by
  have hlength : 8 * link.payload.length % 5 = 1 ∨ 8 * link.payload.length % 5 = 2 := by
    rw [length_payload]
    decide
  have hdecode (payload : String) : Base32.decode payload = .ok link.payload ↔
      significant payload.toList = (Base32.encode link.payload).toList := by
    rw [Base32.decode_eq_ok_iff_normalised hlength, ← String.toList_inj, normalised,
      String.toList_ofList]
  rw [← exists_stripPrefix_trim]
  simp only [parse, Except.bind_eq_ok, Option.okOr_eq_ok, Except.mapError_eq_ok,
    Except.ite_error_eq_ok, not_not, ← hdecode]
  constructor
  · rintro ⟨text, htext, bytes, hbytes, hlen, key, hkey, commitment, hcommitment, hlink⟩
    have hparts : bytes = payload ⟨key, commitment⟩ := sized_payload.mp ⟨hlen, hkey, hcommitment⟩
    obtain rfl := Except.ok.inj hlink
    subst hparts
    exact ⟨text, htext, hbytes⟩
  · rintro ⟨payload, hpayload, hbytes⟩
    obtain ⟨hlen, hkey, hcommitment⟩ := sized_payload.mpr (Eq.refl link.payload)
    exact ⟨payload, hpayload, link.payload, hbytes, hlen, _, hkey, _, hcommitment, rfl⟩

theorem map_toUpper_encode (bytes : Bytes) :
    (Base32.encode bytes).toList.map Char.toUpper = (Base32.encode bytes).toList := by
  rw [List.map_congr_left (g := id) (Base32.forall_mem_encode (by decide)), List.map_id]

/-- The symbols of a link are upper case, and none of them is white space. -/
theorem significant_encode (bytes : Bytes) :
    significant (Base32.encode bytes).toList = (Base32.encode bytes).toList := by
  have hplain : ∀ c ∈ (Base32.encode bytes).toList, !isWhitespace c :=
    Base32.forall_mem_encode (by decide)
  rw [significant, List.filter_eq_self.mpr hplain, map_toUpper_encode]

end ContactLink

/-! ## Texts that were reflowed -/

/-- A text with white space put in, and with letters in lower case. -/
inductive Reflows : List Char → List Char → Prop
  | nil : Reflows [] []
  | space {c : Char} {text reflowed : List Char} (hspace : isWhitespace c)
      (h : Reflows text reflowed) : Reflows text (c :: reflowed)
  | keep (c : Char) {text reflowed : List Char} (h : Reflows text reflowed) :
      Reflows (c :: text) (c :: reflowed)
  | lower (c : Char) {text reflowed : List Char} (h : Reflows text reflowed) :
      Reflows (c :: text) (c.toLower :: reflowed)

namespace Reflows

variable {text reflowed : List Char}

theorem refl (text : List Char) : Reflows text text := by
  induction text with
  | nil => exact nil
  | cons c text ih => exact keep c ih

theorem toLower (text : List Char) : Reflows text (text.map Char.toLower) := by
  induction text with
  | nil => exact nil
  | cons c text ih => exact lower c ih

theorem append {text' reflowed' : List Char} (h : Reflows text reflowed)
    (h' : Reflows text' reflowed') : Reflows (text ++ text') (reflowed ++ reflowed') := by
  induction h with
  | nil => exact h'
  | space hspace _ ih => exact space hspace ih
  | keep c _ ih => exact keep c ih
  | lower c _ ih => exact lower c ih

theorem gap {gap : List Char} (hgap : ∀ c ∈ gap, isWhitespace c) : Reflows [] gap := by
  induction gap with
  | nil => exact nil
  | cons c gap ih =>
    rw [List.forall_mem_cons] at hgap
    exact space hgap.1 (ih hgap.2)

/-- White space between groups is put in. -/
theorem intercalate {separator : List Char} (hspace : ∀ c ∈ separator, isWhitespace c)
    (groups : List (List Char)) : Reflows groups.flatten (separator.intercalate groups) := by
  induction groups with
  | nil => exact nil
  | cons group groups ih =>
    cases groups with
    | nil => simpa using refl group
    | cons next groups =>
      rw [List.intercalate_cons_cons, List.flatten_cons]
      simpa using (refl group).append ((gap hspace).append ih)

/-- A character that reflowing does not hide. -/
def Plain (c : Char) : Prop :=
  !isWhitespace c ∧ !isWhitespace c.toLower ∧ c.toLower.toUpper = c.toUpper

instance (c : Char) : Decidable (Plain c) := inferInstanceAs (Decidable (_ ∧ _))

/-- Reflowing keeps what counts. -/
theorem significant_eq (h : Reflows text reflowed) (hplain : ∀ c ∈ text, Plain c) :
    significant reflowed = text.map Char.toUpper := by
  induction h with
  | nil => rfl
  | space hspace h ih =>
    rw [Base32.significant_cons, significant_eq_nil (by simpa using hspace), List.nil_append,
      ih hplain]
  | keep c h ih =>
    rw [List.forall_mem_cons] at hplain
    obtain ⟨⟨hc, -, -⟩, hrest⟩ := hplain
    rw [Base32.significant_cons, ih hrest]
    simp [significant, hc]
  | lower c h ih =>
    rw [List.forall_mem_cons] at hplain
    obtain ⟨⟨-, hc, hupper⟩, hrest⟩ := hplain
    rw [Base32.significant_cons, ih hrest]
    simp [significant, hc, hupper]

end Reflows

/-- Removes the white space of a text, and writes what is behind the prefix in upper case. -/
def straightened (text : String) : String :=
  let symbols := text.toList.filter (!isWhitespace ·)
  let (start, rest) := symbols.splitAt linkPrefix.length
  String.ofList (start ++ rest.map Char.toUpper)

namespace ContactLink

variable {link : ContactLink} {text : String}

theorem toList_toText (link : ContactLink) :
    link.toText.toList = linkPrefix.toList ++ (Base32.encode link.payload).toList :=
  String.toList_append

theorem plain_toText (link : ContactLink) : ∀ c ∈ link.toText.toList, Reflows.Plain c := by
  have hstart : linkPrefix.toList.all (decide <| Reflows.Plain ·) := by decide
  rw [toList_toText, List.forall_mem_append]
  exact ⟨by simpa using hstart, Base32.forall_mem_encode (by decide +kernel)⟩

/-- A text that is the link but for white space and the case of letters. -/
def Reflowed (link : ContactLink) (text : String) : Prop :=
  significant text.toList = significant link.toText.toList

theorem reflowed_of_reflows (h : Reflows link.toText.toList text.toList) : link.Reflowed text :=
  (h.significant_eq (plain_toText link)).trans
    ((Reflows.refl _).significant_eq (plain_toText link)).symm

/-- Behind a whole prefix the symbols are those of the link. -/
theorem parse_of_reflowed (h : link.Reflowed text) (hwhole : PrefixWhole text) :
    parse text = .ok link := by
  obtain ⟨gap, rest, hgap, htext⟩ := hwhole
  refine parse_eq_ok.mpr ⟨gap, rest, hgap, htext, ?_⟩
  rw [Reflowed, htext, significant_append, significant_append, significant_eq_nil hgap,
    List.nil_append, toList_toText, significant_append, significant_encode] at h
  exact List.append_cancel_left h

theorem prefixWhole_of_parse (h : parse text = .ok link) : PrefixWhole text := by
  obtain ⟨gap, rest, hgap, htext, -⟩ := parse_eq_ok.mp h
  exact ⟨gap, rest, hgap, htext⟩

/-- Without the whole prefix there is no link. -/
theorem parse_of_not_prefixWhole (h : ¬ PrefixWhole text) : parse text = .error .notALink := by
  have hnone : stripPrefix (trim text) linkPrefix = none := by
    simpa [← isSome_stripPrefix_trim] using h
  rw [parse, hnone]
  rfl

/-- A link that was reflowed is read exactly if its prefix stayed whole. -/
theorem parse_reflowed_iff (h : Reflows link.toText.toList text.toList) :
    parse text = .ok link ↔ PrefixWhole text :=
  ⟨prefixWhole_of_parse, parse_of_reflowed (reflowed_of_reflows h)⟩

theorem straightened_of_parse (h : parse text = .ok link) : straightened text = link.toText := by
  obtain ⟨gap, rest, hgap, htext, hsymbols⟩ := parse_eq_ok.mp h
  have hplain : linkPrefix.toList.filter (!isWhitespace ·) = linkPrefix.toList := by decide
  have hgap : gap.filter (!isWhitespace ·) = [] := by simpa using hgap
  have hfilter : text.toList.filter (!isWhitespace ·) =
      linkPrefix.toList ++ rest.filter (!isWhitespace ·) := by
    rw [htext, List.filter_append, List.filter_append, hgap, hplain, List.nil_append]
  apply String.toList_injective
  rw [straightened, hfilter, List.splitAt_eq, List.take_left' String.length_toList,
    List.drop_left' String.length_toList, String.toList_ofList, toList_toText, ← hsymbols]
  rfl

/-- A link has one text. It is read as what it was made from, and what is read as the link is the
text, up to white space and to the case of what is behind the prefix. -/
theorem one_spelling :
    (∀ link, parse (toText link) = .ok link ∧ ∃ symbols : List Char,
      link.toText = linkPrefix ++ String.ofList symbols ∧ symbols.length = 103 ∧
        ∀ c ∈ symbols, c ∈ Base32.alphabet.map fun byte => Char.ofNat byte.toNat) ∧
    (∀ text link, parse text = .ok link → straightened text = link.toText) ∧
    ∀ text other link, parse text = .ok link → parse other = .ok link →
      straightened text = straightened other := by
  refine ⟨fun link => ⟨?_, ?_⟩, fun text link => straightened_of_parse, ?_⟩
  · rw [parse_eq_ok]
    exact ⟨[], _, by simp, toList_toText link, significant_encode link.payload⟩
  · refine ⟨(Base32.encode link.payload).toList, ?_, ?_,
      Base32.forall_mem_encode (by decide +kernel)⟩
    · rw [String.ofList_toList, toText]
    · obtain ⟨pad, hpad, hspells⟩ := Base32.encode_padded link.payload
      have hlength := hspells.length_eq
      rw [length_payload] at hlength
      omega
  · intro text other link htext hother
    rw [straightened_of_parse htext, straightened_of_parse hother]

/-! ### A link in other channels -/

/-- A link. -/
def sample : ContactLink := ⟨.replicate 32 0x44, .replicate 32 0x55⟩

/-- A link in lower case behind a line break is still read. -/
theorem parse_reflowed_sample :
    parse (String.ofList ('\n' :: sample.toText.toList.map Char.toLower)) = .ok sample := by
  refine (parse_reflowed_iff ?_).mpr
    ⟨['\n'], (Base32.encode sample.payload).toList.map Char.toLower, by simp; decide, ?_⟩
  · rw [String.toList_ofList]
    exact .space (by decide) (.toLower _)
  · rw [String.toList_ofList, toList_toText, List.map_append]
    rfl

/-- A link that was broken inside its prefix is not read. -/
theorem parse_broken_prefix : ¬ ∀ (link : ContactLink) (text : String),
    Reflows link.toText.toList text.toList → parse text = .ok link := by
  intro hall
  have hreflows : Reflows sample.toText.toList
      (String.ofList ('o' :: 'n' :: 'e' :: '\n' :: sample.toText.toList.drop 3)).toList := by
    have hsplit : sample.toText.toList = 'o' :: 'n' :: 'e' :: sample.toText.toList.drop 3 := by
      rw [toList_toText]
      rfl
    rw [String.toList_ofList]
    nth_rewrite 1 [hsplit]
    exact .keep _ (.keep _ (.keep _ (.space (by decide) (.refl _))))
  obtain ⟨gap, rest, hgap, htext, -⟩ := parse_eq_ok.mp (hall _ _ hreflows)
  rw [String.toList_ofList] at htext
  cases gap with
  | nil =>
    have hfourth : '\n' = 's' := congrArg (·.getD 3 'o') htext
    exact absurd hfourth (by decide)
  | cons c gap =>
    obtain ⟨rfl, -⟩ := List.cons.inj htext
    exact absurd (hgap 'o' List.mem_cons_self) (by decide)

end ContactLink

end Onestein.Contact
