import Onestein.Bdf.Dictionary
import Onestein.Contact.Base32
import Onestein.Crypto.Hash

/-!
# Contact bundles

What crosses between two people when they meet or exchange a link, and the commitment to it. The
commitment goes over a channel that an adversary can watch but not alter, the bundle may go
anywhere.

## Main definitions

* `ContactBundle.encode`, `ContactBundle.decode` — a bundle as a canonical dictionary.
* `ContactBundle.check` — a received bundle against a commitment.
* `NoOtherEntry` — a dictionary with the keys of a bundle only.

## Main results

* `ContactBundle.decode_eq_ok` — what a dictionary holds that is read as a bundle.
* `ContactBundle.check_received_iff` — when the check is one of the received bytes.
* `ContactBundle.commitment_fixes` — what is written reads back, and a commitment is to one bundle.
-/

namespace Onestein.Contact

open Crypto Bdf

/-- Contact layer version. -/
def contactVersion : UInt8 := 1

/-- Identity layer version, inside the bundle. -/
def identityVersion : UInt8 := 1

/-- Length of an Ed25519 root public key. -/
abbrev rootEd25519Len : Nat := 32

/-- Length of an ML-DSA-65 root public key. -/
def rootMldsaLen : Nat := 1952

/-- Length of an X25519 contact public key. -/
abbrev contactKeyLen : Nat := 32

def bundleLabel : Bytes := Bytes.utf8 "org.onestein.contact/BUNDLE"

/-- Why a bundle or a link could not be read. -/
inductive Error where
  | malformed
  | wrongKeyLength (expected given : Nat)
  | notALink
  | notBase32 (error : Base32.Error)
  | commitmentMismatch
  | degenerateSharedSecret
  deriving DecidableEq

/-- What crosses between two people when they meet or exchange a link. -/
structure ContactBundle where
  rootEd25519 : Octets rootEd25519Len
  rootMldsa : Bytes
  contactKey : Octets contactKeyLen
  deriving DecidableEq

def raw (fields : List (String × Value)) (key : String) : Except Error Bytes :=
  match fields.find? (·.1 == key) with
  | some (_, .raw value) => .ok value
  | _ => .error .malformed

def sized (expected : Nat) (bytes : Bytes) : Except Error (Octets expected) :=
  (Octets.ofBytes? bytes).okOr (.wrongKeyLength expected bytes.length)

namespace ContactBundle

/-- The fields, in canonical order. -/
def fields (bundle : ContactBundle) : List (String × Value) :=
  [("ed", .raw bundle.rootEd25519.toList),
    ("pq", .raw bundle.rootMldsa),
    ("v", .int identityVersion.toUInt64.toInt64),
    ("x", .raw bundle.contactKey.toList)]

/-- Encodes the bundle as canonical BDF. -/
def encode (bundle : ContactBundle) : Except Error Bytes :=
  if bundle.rootMldsa.length ≠ rootMldsaLen then
    .error (.wrongKeyLength rootMldsaLen bundle.rootMldsa.length)
  else .ok (toBytes (.dict bundle.fields))

/-- A bundle of another version is not read. -/
def readVersion (fields : List (String × Value)) : Except Error Unit :=
  match fields.find? (·.1 == "v") with
  | some (_, .int version) =>
    if version = identityVersion.toUInt64.toInt64 then .ok () else .error .malformed
  | _ => .error .malformed

/-- The bundle in the entries of a dictionary. -/
def read (fields : List (String × Value)) : Except Error ContactBundle := do
  readVersion fields
  let rootMldsa ← raw fields "pq"
  if rootMldsa.length ≠ rootMldsaLen then
    .error (.wrongKeyLength rootMldsaLen rootMldsa.length)
  else
  .ok {
    rootEd25519 := ← sized rootEd25519Len (← raw fields "ed")
    rootMldsa := rootMldsa
    contactKey := ← sized contactKeyLen (← raw fields "x") }

/-- Reads a bundle. -/
def decode (bytes : Bytes) : Except Error ContactBundle :=
  match fromBytesCanonical bytes with
  | .ok (.dict fields) => read fields
  | _ => .error .malformed

/-- What is hashed for a commitment. -/
def committed (bytes : Bytes) : List Bytes := [bundleLabel, [contactVersion], bytes]

section Commitment

variable [Blake2b]

/-- The 32 bytes that travel over the channel an adversary can watch but not alter. -/
def commitment (bundle : ContactBundle) : Except Error Digest := do
  .ok (hash (committed (← bundle.encode)))

/-- Checks a received bundle against a commitment from the other channel. -/
def check (bundle : ContactBundle) (commitment : Digest) : Except Error Unit := do
  if (← bundle.commitment) = commitment then .ok () else .error .commitmentMismatch

end Commitment

end ContactBundle

/-! ## What a bundle is read from -/

section Read

variable {fields : List (String × Value)} {key : String}

theorem raw_eq_ok {value : Bytes} (hsorted : keysSorted fields) :
    raw fields key = .ok value ↔ (key, .raw value) ∈ fields :=
  lookup_raw_eq_ok hsorted

theorem sized_eq_ok {n : Nat} {bytes : Bytes} {v : Octets n} :
    sized n bytes = .ok v ↔ v.toList = bytes := by
  rw [sized, Option.okOr_eq_ok, Octets.ofBytes?_eq_some]

namespace ContactBundle

variable {bundle : ContactBundle} {bytes : Bytes}

theorem readVersion_eq_ok (hsorted : keysSorted fields) :
    readVersion fields = .ok () ↔ ("v", .int identityVersion.toUInt64.toInt64) ∈ fields := by
  rw [← exists_find?_eq_some hsorted, readVersion]
  cases fields.find? (·.1 == "v") with
  | none => simp
  | some entry =>
    obtain ⟨name, value⟩ := entry
    cases value <;> simp

/-- The entries that are not those of a bundle are not looked at. -/
theorem read_eq_ok (hsorted : keysSorted fields) :
    read fields = .ok bundle ↔ bundle.rootMldsa.length = rootMldsaLen ∧ bundle.fields ⊆ fields := by
  simp only [read, Except.ite_error_eq_ok, Except.bind_eq_ok, raw_eq_ok hsorted, sized_eq_ok,
    readVersion_eq_ok hsorted, not_not]
  constructor
  · rintro ⟨⟨⟩, hversion, mldsa, hmldsa, hlen, _, hed, ed, rfl, _, hx, x, rfl, h⟩
    cases h
    refine ⟨hlen, ?_⟩
    simp [ContactBundle.fields, hed, hmldsa, hversion, hx]
  · rintro ⟨hlen, hsub⟩
    simp only [ContactBundle.fields, List.cons_subset] at hsub
    obtain ⟨hed, hmldsa, hversion, hx, -⟩ := hsub
    exact ⟨(), hversion, _, hmldsa, hlen, _, hed, _, rfl, _, hx, _, rfl, rfl⟩

end ContactBundle

end Read

/-! ## What a bundle is written to -/

namespace ContactBundle

variable {bundle : ContactBundle} {bytes : Bytes}

theorem encode_eq_ok :
    bundle.encode = .ok bytes ↔
      bundle.rootMldsa.length = rootMldsaLen ∧ toBytes (.dict bundle.fields) = bytes := by
  rw [encode, Except.ite_error_eq_ok, not_not, Except.ok.injEq]

/-- The field order is the canonical one. -/
theorem keysSorted_fields (bundle : ContactBundle) : keysSorted bundle.fields := by
  have hnames : bundle.fields.map Prod.fst = ["ed", "pq", "v", "x"] := rfl
  rw [keysSorted_eq, hnames]
  decide

/-- A dictionary of the fields of a bundle and other values without containers reads back. -/
theorem fromBytesCanonical_append (entries : List (String × Value))
    (hlen : bundle.rootMldsa.length = rootMldsaLen)
    (hsorted : keysSorted (bundle.fields ++ entries)) (hflat : nestingEntries entries = 0)
    (hfit : FitEntries entries) :
    fromBytesCanonical (toBytes (.dict (bundle.fields ++ entries))) =
      .ok (.dict (bundle.fields ++ entries)) := by
  rw [keysSorted_eq] at hsorted
  apply fromBytesCanonical_toBytes_flat _ rfl hsorted
  · simp [fields, nestingEntries, Value.nesting, hflat]
  · have hed : bundle.rootEd25519.toList.length ≤ maxLen := by
      rw [Vector.length_toList]
      decide
    have hx : bundle.contactKey.toList.length ≤ maxLen := by
      rw [Vector.length_toList]
      decide
    have hpq : bundle.rootMldsa.length ≤ maxLen := by
      rw [hlen]
      decide
    exact ⟨by decide, hed, by decide, hpq, by decide, trivial, by decide, hx, hfit⟩

/-- What is written for a bundle reads back. -/
theorem fromBytesCanonical_fields (hlen : bundle.rootMldsa.length = rootMldsaLen) :
    fromBytesCanonical (toBytes (.dict bundle.fields)) = .ok (.dict bundle.fields) := by
  have h := fromBytesCanonical_append [] hlen
  simp only [List.append_nil] at h
  exact h (keysSorted_fields bundle) rfl trivial

/-- The bundle, and any other entries, are in the dictionary that was received. -/
theorem decode_eq_ok :
    decode bytes = .ok bundle ↔ bundle.rootMldsa.length = rootMldsaLen ∧
      ∃ fields, fromBytesCanonical bytes = .ok (.dict fields) ∧ bundle.fields ⊆ fields := by
  rw [decode]
  split
  case h_1 fields hfields =>
    obtain ⟨-, hcanonical, -⟩ := fromBytesCanonical_eq_ok_iff.mp hfields
    simp only [Value.isCanonical, Bool.and_eq_true] at hcanonical
    simp [read_eq_ok hcanonical.1, hfields]
  case h_2 hnone =>
    constructor
    · intro h
      cases h
    · rintro ⟨-, fields, hfields, -⟩
      exact absurd hfields (hnone fields)

/-- A received dictionary has no keys but those of a bundle. -/
def NoOtherEntry (bytes : Bytes) : Prop :=
  ∀ fields, fromBytesCanonical bytes = .ok (.dict fields) →
    ∀ entry ∈ fields, entry.1 ∈ ["ed", "pq", "v", "x"]

/-- What is written for a received bundle is what was received, unless it had another entry. -/
theorem encode_received_iff (h : decode bytes = .ok bundle) :
    bundle.encode = .ok bytes ↔ NoOtherEntry bytes := by
  obtain ⟨hlen, fields, hfields, hsub⟩ := decode_eq_ok.mp h
  obtain ⟨-, hcanonical, rfl⟩ := fromBytesCanonical_eq_ok_iff.mp hfields
  simp only [Value.isCanonical, Bool.and_eq_true] at hcanonical
  rw [encode_eq_ok, and_iff_right hlen]
  constructor
  · intro heq fields' hfields' entry hentry
    rw [← heq, fromBytesCanonical_fields hlen] at hfields'
    cases hfields'
    exact List.mem_map_of_mem hentry
  · intro hother
    have heq := eq_of_keys_subset hcanonical.1 (keysSorted_fields bundle) hsub
      (hother fields hfields)
    rw [heq]

section Commitment

variable [Blake2b]

theorem check_eq_ok {encoded : Bytes} {commitment : Digest} (h : bundle.encode = .ok encoded) :
    bundle.check commitment = .ok () ↔ Crypto.hash (committed encoded) = commitment := by
  simp [check, ContactBundle.commitment, h]

/-- A received bundle is written as it was received, and so checked against the hash of what was
received, exactly if the dictionary had no other entry. -/
theorem check_received_iff (h : decode bytes = .ok bundle) :
    (bundle.encode = .ok bytes ↔ NoOtherEntry bytes) ∧
      ((∀ encoded, bundle.encode = .ok encoded →
          Set.InjOn Blake2b.digest {frame (committed encoded), frame (committed bytes)}) →
        ((∀ commitment, bundle.check commitment = .ok () ↔
            commitment = Crypto.hash (committed bytes)) ↔ NoOtherEntry bytes)) := by
  have hencode := encode_received_iff h
  refine ⟨hencode, fun hcol => ?_⟩
  obtain ⟨hlen, -⟩ := decode_eq_ok.mp h
  have hencoded : bundle.encode = .ok (toBytes (.dict bundle.fields)) :=
    encode_eq_ok.mpr ⟨hlen, rfl⟩
  rw [← hencode]
  constructor
  · intro hall
    have hhash := (hall _).mp ((check_eq_ok hencoded).mpr rfl)
    have hframe := Set.injOn_pair.mp (hcol _ hencoded) hhash
    rw [hencoded, frame_concat_injective [bundleLabel, [contactVersion]] hframe]
  · intro hsame commitment
    rw [check_eq_ok hsame]
    exact eq_comm

omit [Blake2b] in
/-- What is written for a bundle reads back as the bundle. -/
theorem decode_encode (hlen : bundle.rootMldsa.length = rootMldsaLen) :
    ∃ encoded, bundle.encode = .ok encoded ∧ decode encoded = .ok bundle :=
  ⟨_, encode_eq_ok.mpr ⟨hlen, rfl⟩,
    decode_eq_ok.mpr ⟨hlen, _, fromBytesCanonical_fields hlen, List.Subset.refl _⟩⟩

/-- A bundle with an ML-DSA key of the right length reads back from what is written for it. And its
commitment is that of no other such bundle, where the hash has no collision between the two. -/
theorem commitment_fixes (first second : ContactBundle)
    (hfirst : first.rootMldsa.length = rootMldsaLen)
    (hsecond : second.rootMldsa.length = rootMldsaLen)
    (hcollision : ∀ bytes bytes', first.encode = .ok bytes → second.encode = .ok bytes' →
      Set.InjOn Blake2b.digest {frame (committed bytes), frame (committed bytes')}) :
    (∃ encoded, first.encode = .ok encoded ∧ decode encoded = .ok first) ∧
      ∃ commitment, first.commitment = .ok commitment ∧
        (second.check commitment = .ok () ↔ first = second) := by
  obtain ⟨bytes, hbytes, hread⟩ := decode_encode hfirst
  obtain ⟨bytes', hbytes', hread'⟩ := decode_encode hsecond
  refine ⟨⟨bytes, hbytes, hread⟩, Crypto.hash (committed bytes), ?_, ?_⟩
  · rw [ContactBundle.commitment, hbytes]
    rfl
  · rw [check_eq_ok hbytes']
    constructor
    · intro hhash
      have hframe := Set.injOn_pair.mp (hcollision _ _ hbytes hbytes') hhash.symm
      obtain rfl := frame_concat_injective [bundleLabel, [contactVersion]] hframe
      exact Except.ok.inj (hread.symm.trans hread')
    · rintro rfl
      rw [Except.ok.inj (hbytes.symm.trans hbytes')]

end Commitment

namespace Sample

/-- A bundle with keys of one byte over and over. -/
def made : ContactBundle where
  rootEd25519 := Vector.replicate _ 0x11
  rootMldsa := List.replicate rootMldsaLen 0x22
  contactKey := Vector.replicate _ 0x33

/-- The bundle as it is sent. -/
def sent : Bytes := toBytes (.dict made.fields)

/-- The bundle with an entry that was put in on the way. -/
def altered : Bytes := toBytes (.dict (made.fields ++ [("z", .null)]))

theorem length_rootMldsa : made.rootMldsa.length = rootMldsaLen := List.length_replicate

theorem decode_sent : decode sent = .ok made :=
  decode_eq_ok.mpr ⟨length_rootMldsa, _, fromBytesCanonical_fields length_rootMldsa,
    List.Subset.refl _⟩

theorem noOtherEntry_sent : NoOtherEntry sent := by
  intro fields h entry hentry
  rw [sent, fromBytesCanonical_fields length_rootMldsa] at h
  cases h
  exact List.mem_map_of_mem hentry

theorem fromBytesCanonical_altered :
    fromBytesCanonical altered = .ok (.dict (made.fields ++ [("z", .null)])) := by
  have hnames : (made.fields ++ [("z", Value.null)]).map Prod.fst =
      ["ed", "pq", "v", "x", "z"] := rfl
  have hsorted : keysSorted (made.fields ++ [("z", .null)]) := by
    rw [keysSorted_eq, hnames]
    decide
  exact fromBytesCanonical_append _ length_rootMldsa hsorted rfl ⟨by decide, trivial, trivial⟩

theorem decode_altered : decode altered = .ok made :=
  decode_eq_ok.mpr ⟨length_rootMldsa, _, fromBytesCanonical_altered, List.subset_append_left _ _⟩

/-- What was sent passes the check against its own hash. -/
theorem check_received_iff_sent :
    decode sent = .ok made ∧ made.encode = .ok sent ∧
      @check checksum made (@Crypto.hash checksum (committed sent)) = .ok () := by
  let _ := checksum
  obtain ⟨hencode, hcheck⟩ := check_received_iff decode_sent
  have hsame : made.encode = .ok sent := hencode.mpr noOtherEntry_sent
  have hcol : ∀ encoded, made.encode = .ok encoded →
      Set.InjOn Blake2b.digest {frame (committed encoded), frame (committed sent)} := by
    intro encoded hencoded
    rw [hsame] at hencoded
    cases hencoded
    exact Set.injOn_pair.mpr fun _ => rfl
  exact ⟨decode_sent, hsame, ((hcheck hcol).mpr noOtherEntry_sent _).mpr rfl⟩

/-- What was altered on the way passes the check against the hash of what was sent. -/
theorem check_altered :
    decode altered = .ok made ∧ made.encode ≠ .ok altered ∧ altered ≠ sent ∧
      @check checksum made (@Crypto.hash checksum (committed sent)) = .ok () := by
  let _ := checksum
  have hsame : made.encode = .ok sent := (encode_received_iff decode_sent).mpr noOtherEntry_sent
  have hother : made.encode ≠ .ok altered := by
    intro h
    have hkeys := (encode_received_iff decode_altered).mp h _ fromBytesCanonical_altered
      ("z", .null) (by simp)
    exact absurd hkeys (by decide)
  have hne : altered ≠ sent := by
    intro h
    rw [h] at hother
    exact hother hsame
  exact ⟨decode_altered, hother, hne, (check_eq_ok hsame).mpr rfl⟩

/-- The bundle with another contact key. -/
def other : ContactBundle := { made with contactKey := Vector.replicate _ 0x34 }

/-- Another bundle does not pass the check against the commitment to the first one. -/
theorem commitment_fixes_other :
    let _ := checksum
    ∃ commitment, made.commitment = .ok commitment ∧ other.check commitment ≠ .ok () := by
  intro _
  have hcollision : ∀ bytes bytes', made.encode = .ok bytes → other.encode = .ok bytes' →
      Set.InjOn Blake2b.digest {frame (committed bytes), frame (committed bytes')} := by
    intro bytes bytes' hbytes hbytes'
    obtain ⟨-, rfl⟩ := encode_eq_ok.mp hbytes
    obtain ⟨-, rfl⟩ := encode_eq_ok.mp hbytes'
    rw [Set.injOn_pair]
    intro hdigest
    exact absurd hdigest (by decide +kernel)
  obtain ⟨-, commitment, hcommitment, hcheck⟩ :=
    commitment_fixes made other length_rootMldsa length_rootMldsa hcollision
  have hkeys : made.contactKey ≠ other.contactKey := by decide
  exact ⟨commitment, hcommitment, fun hok => hkeys (congrArg contactKey (hcheck.mp hok))⟩

end Sample

end ContactBundle

end Onestein.Contact
