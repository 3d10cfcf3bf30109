import Onestein.Identity.Authenticity

/-!
# What rides in a container

A container is a dictionary in which three entries are looked up. What else is in it, nobody signed
and nobody looks at.

## Main definitions

* `Carries` — a container has a signed part and two signatures among its entries.
* `Accepted` — a container is accepted as a certificate or as a revocation.
* `NothingElse` — a container has no entries but the three.

## Main results

* `openContainer_iff` — the three entries decide whether a container is opened.
* `exact_container_iff` — when an accepted container is what its signer would have written.
-/

namespace Onestein.Identity

open Crypto Bdf

/-- A container has a signed part and two signatures among its entries. -/
def Carries (container signed : Bytes) (ed25519 : Octets 64) (mldsa : Octets 3309) : Prop :=
  ∃ fields, dictionary container = .ok fields ∧ containerFields signed ed25519 mldsa ⊆ fields

/-- A container has no entries but the signed part and the two signatures. -/
def NothingElse (container : Bytes) : Prop :=
  ∀ fields, dictionary container = .ok fields → ∀ entry ∈ fields, entry.1 ∈ ["c", "e", "p"]

/-- A container is accepted as a certificate or as a revocation. -/
def Accepted [Blake2b] [Ed25519] [MlDsa65] (container rootEd25519 rootMldsa : Bytes) : Prop :=
  (∃ certificate, verifyCertificate container rootEd25519 rootMldsa = .ok certificate) ∨
    ∃ revocation, verifyRevocation container rootEd25519 rootMldsa = .ok revocation

section Dictionary

variable {container other signed : Bytes} {e : Octets 64} {p : Octets 3309}
  {fields : List (String × Value)} {key : String} {value : Bytes}

theorem keysSorted_of_dictionary (h : dictionary container = .ok fields) : keysSorted fields := by
  obtain ⟨-, hcanonical, -⟩ := fromBytesCanonical_eq_ok_iff.mp (dictionary_eq_ok.mp h)
  simp only [Value.isCanonical, Bool.and_eq_true] at hcanonical
  exact hcanonical.1

theorem raw_eq_ok (hsorted : keysSorted fields) :
    raw fields key = .ok value ↔ (key, .raw value) ∈ fields :=
  lookup_raw_eq_ok hsorted

theorem keysSorted_containerFields (signed : Bytes) (e : Octets 64) (p : Octets 3309) :
    keysSorted (containerFields signed e p) := by
  have hnames : (containerFields signed e p).map Prod.fst = ["c", "e", "p"] := rfl
  rw [keysSorted_eq, hnames]
  decide

/-- With no other entry, a container is what is written for its parts. -/
theorem Carries.eq_toBytes (h : Carries container signed e p) (hnothing : NothingElse container) :
    container = toBytes (.dict (containerFields signed e p)) := by
  obtain ⟨fields, hfields, hsub⟩ := h
  have heq : fields = containerFields signed e p :=
    eq_of_keys_subset (keysSorted_of_dictionary hfields) (keysSorted_containerFields signed e p)
      hsub (hnothing fields hfields)
  rw [eq_toBytes_of_dictionary hfields, heq]

theorem Carries.length_le (h : Carries container signed e p) : signed.length ≤ maxLen := by
  obtain ⟨fields, hfields, hsub⟩ := h
  have hfit := fits_of_fromBytes (fromBytesCanonical_eq_ok_iff.mp (dictionary_eq_ok.mp hfields)).1
  have hmem : ("c", .raw signed) ∈ fields := hsub (by simp [containerFields])
  exact fits_of_mem hfit hmem

/-- A container has one signed part and one signature of each kind. -/
theorem Carries.unique {signed' : Bytes} {e' : Octets 64} {p' : Octets 3309}
    (h : Carries container signed e p) (h' : Carries container signed' e' p') :
    signed = signed' ∧ e = e' ∧ p = p' := by
  obtain ⟨fields, hfields, hsub⟩ := h
  obtain ⟨fields', hfields', hsub'⟩ := h'
  obtain rfl := Except.ok.inj (hfields.symm.trans hfields')
  have hsame {key : String} {a b : Bytes} (ha : (key, .raw a) ∈ fields)
      (hb : (key, .raw b) ∈ fields) : a = b := by
    rw [← raw_eq_ok (keysSorted_of_dictionary hfields)] at ha hb
    exact Except.ok.inj (ha.symm.trans hb)
  simp only [containerFields, List.cons_subset] at hsub hsub'
  obtain ⟨hc, he, hp, -⟩ := hsub
  obtain ⟨hc', he', hp', -⟩ := hsub'
  exact ⟨hsame hc hc', Vector.toList_inj.mp (hsame he he'), Vector.toList_inj.mp (hsame hp hp')⟩

/-- With its own parts and no other entry, a container is what is written for these parts. -/
theorem Carries.eq_toBytes_iff (h : Carries container signed e p) :
    container = toBytes (.dict (containerFields signed e p)) ↔ NothingElse container := by
  refine ⟨?_, h.eq_toBytes⟩
  rintro rfl fields hfields entry hentry
  rw [dictionary_containerFields e p h.length_le] at hfields
  obtain rfl := Except.ok.inj hfields
  exact List.mem_map_of_mem (f := Prod.fst) hentry

end Dictionary

section Open

variable [Blake2b] [Ed25519] [MlDsa65] {container other rootEd25519 rootMldsa label : Bytes}
  {body : List (String × Value)} {identity : IdentityId} {signed : Bytes} {e : Octets 64}
  {p : Octets 3309}

omit [Blake2b] [MlDsa65] in
theorem exists_of_verifyEd25519 {message signature : Bytes}
    (h : verifyEd25519 rootEd25519 message signature = .ok ()) :
    ∃ e : Octets 64, e.toList = signature := by
  simp only [verifyEd25519, Except.bind_eq_ok, Except.ite_error_eq_ok, exact_eq_ok] at h
  obtain ⟨_, -, -, e, he, -⟩ := h
  exact ⟨e, he⟩

omit [Blake2b] [Ed25519] in
theorem exists_of_verifyMldsa {message signature : Bytes}
    (h : verifyMldsa rootMldsa message signature = .ok ()) :
    ∃ p : Octets 3309, p.toList = signature := by
  simp only [verifyMldsa, Except.bind_eq_ok, Option.okOr_eq_ok, Octets.ofBytes?_eq_some] at h
  obtain ⟨_, -, p, hp, -⟩ := h
  exact ⟨p, hp⟩

/-- The three entries decide whether a container is opened, and as what. -/
theorem openContainer_iff :
    openContainer container rootEd25519 rootMldsa label = .ok (body, identity) ↔
      ∃ signed e p, Carries container signed e p ∧
        IdentityId.derive rootEd25519 rootMldsa = .ok identity ∧ dictionary signed = .ok body ∧
        verifyEd25519 rootEd25519 (hash [label, signed] : Digest).toList e.toList = .ok () ∧
        verifyMldsa rootMldsa (hash [label, signed] : Digest).toList p.toList = .ok () := by
  simp only [openContainer, Except.bind_eq_ok, Except.ok.injEq, Prod.mk.injEq]
  constructor
  · rintro ⟨_, hid, fields, hfields, signed, hsigned, signature, he, ⟨⟩, hed, signature', hp, ⟨⟩,
      hml, _, hbody, rfl, rfl⟩
    have hsorted := keysSorted_of_dictionary hfields
    rw [raw_eq_ok hsorted] at hsigned he hp
    obtain ⟨e, rfl⟩ := exists_of_verifyEd25519 hed
    obtain ⟨p, rfl⟩ := exists_of_verifyMldsa hml
    exact ⟨signed, e, p, ⟨fields, hfields, by simp [containerFields, hsigned, he, hp]⟩, hid, hbody,
      hed, hml⟩
  · rintro ⟨signed, e, p, ⟨fields, hfields, hsub⟩, hid, hbody, hed, hml⟩
    have hsorted := keysSorted_of_dictionary hfields
    simp only [containerFields, List.cons_subset] at hsub
    obtain ⟨hsigned, he, hp, -⟩ := hsub
    exact ⟨identity, hid, fields, hfields, signed, (raw_eq_ok hsorted).mpr hsigned, _,
      (raw_eq_ok hsorted).mpr he, (), hed, _, (raw_eq_ok hsorted).mpr hp, (), hml, body, hbody,
      rfl, rfl⟩

/-- What else is in a container does not matter to whether it is opened. -/
theorem openContainer_of_carries (h : Carries container signed e p) (h' : Carries other signed e p)
    (hopen : openContainer container rootEd25519 rootMldsa label = .ok (body, identity)) :
    openContainer other rootEd25519 rootMldsa label = .ok (body, identity) := by
  obtain ⟨signed', e', p', hcarries, hrest⟩ := openContainer_iff.mp hopen
  obtain ⟨rfl, rfl, rfl⟩ := h.unique hcarries
  exact openContainer_iff.mpr ⟨signed, e, p, h', hrest⟩

/-- An accepted container has its three parts. -/
theorem Accepted.exists_carries (h : Accepted container rootEd25519 rootMldsa) :
    ∃ signed e p, Carries container signed e p := by
  rcases h with ⟨_, h⟩ | ⟨_, h⟩
  · obtain ⟨_, hopen, -⟩ := Except.bind_eq_ok.mp h
    obtain ⟨signed, e, p, hcarries, -⟩ := openContainer_iff.mp hopen
    exact ⟨signed, e, p, hcarries⟩
  · obtain ⟨_, hopen, -⟩ := Except.bind_eq_ok.mp h
    obtain ⟨signed, e, p, hcarries, -⟩ := openContainer_iff.mp hopen
    exact ⟨signed, e, p, hcarries⟩

/-- An accepted container is the canonical encoding of its signed part and its two signatures
exactly if it has no other entry. And then another container of the same parts is the same bytes
exactly if that one has no other entry. -/
theorem exact_container_iff (h : Accepted container rootEd25519 rootMldsa) :
    ∃ signed e p, Carries container signed e p ∧
      (container = toBytes (.dict (containerFields signed e p)) ↔ NothingElse container) ∧
      ∀ other, Accepted other rootEd25519 rootMldsa → Carries other signed e p →
        NothingElse container → (other = container ↔ NothingElse other) := by
  obtain ⟨signed, e, p, hcarries⟩ := h.exists_carries
  refine ⟨signed, e, p, hcarries, hcarries.eq_toBytes_iff, fun other _ hother hnothing => ?_⟩
  rw [hcarries.eq_toBytes hnothing]
  exact hother.eq_toBytes_iff

end Open

namespace Sample

attribute [local instance] checksum instEd25519 instMlDsa65

/-- What the root keys sign for the certificate. -/
def toSign : Digest := hash [certificateLabel, encoded]

/-- The two signatures of the certificate. -/
def ed25519Signature : Octets 64 := Ed25519.sign keys.ed25519 toSign.toList

def mldsaSignature : Octets 3309 := Octets.be 3309 (Bytes.val toSign.toList)

/-- The container with an entry that was put in on the way. -/
def alteredFields : List (String × Value) :=
  containerFields encoded ed25519Signature mldsaSignature ++ [("z", .null)]

def altered : Bytes := toBytes (.dict alteredFields)

theorem container_eq :
    container = toBytes (.dict (containerFields encoded ed25519Signature mldsaSignature)) := by
  have hsign := signCertificate_certificate
  rw [RootKeys.signCertificate, encode_certificate, Except.ok_bind] at hsign
  exact (Except.ok.inj hsign).symm

theorem carries_container : Carries container encoded ed25519Signature mldsaSignature := by
  rw [container_eq]
  exact ⟨_, dictionary_containerFields _ _ (DeviceCertificate.length_encode_le encode_certificate),
    List.Subset.refl _⟩

theorem dictionary_altered : dictionary altered = .ok alteredFields := by
  have hlen := DeviceCertificate.length_encode_le encode_certificate
  refine dictionary_toBytes_flat ["c", "e", "p", "z"] rfl (by decide) rfl ?_
  simp [alteredFields, containerFields, FitEntries, Value.Fits, hlen]
  simp [maxLen]
  decide

theorem carries_altered : Carries altered encoded ed25519Signature mldsaSignature :=
  ⟨_, dictionary_altered, List.subset_append_left _ _⟩

/-- The changed container is the same certificate as before. -/
theorem verify_altered :
    verifyCertificate altered keys.ed25519Public.toList keys.mldsaPublic.toList =
      .ok certificate := by
  obtain ⟨⟨body, identity⟩, hopen, hread⟩ := Except.bind_eq_ok.mp verify_container.2
  exact Except.bind_eq_ok.mpr
    ⟨_, openContainer_of_carries carries_container carries_altered hopen, hread⟩

theorem not_nothingElse_altered : ¬ NothingElse altered := by
  intro h
  have hz : ("z", Value.null) ∈ alteredFields := List.mem_append_right _ (List.mem_singleton_self _)
  exact absurd (h _ dictionary_altered _ hz) (by decide)

/-- A certificate is accepted in two containers that differ in what was put into one of them. -/
theorem altered_accepted :
    verifyCertificate container keys.ed25519Public.toList keys.mldsaPublic.toList =
        .ok certificate ∧
      verifyCertificate altered keys.ed25519Public.toList keys.mldsaPublic.toList =
        .ok certificate ∧
      Carries container encoded ed25519Signature mldsaSignature ∧
      Carries altered encoded ed25519Signature mldsaSignature ∧
      altered ≠ container ∧
      altered ≠ toBytes (.dict (containerFields encoded ed25519Signature mldsaSignature)) := by
  have hne : altered ≠
      toBytes (.dict (containerFields encoded ed25519Signature mldsaSignature)) := fun h =>
    not_nothingElse_altered (carries_altered.eq_toBytes_iff.mp h)
  exact ⟨verify_container.2, verify_altered, carries_container, carries_altered,
    fun h => hne (h.trans container_eq), hne⟩

/-- The container as it was signed has nothing else in it. -/
theorem exact_container : NothingElse container ∧
    ∃ signed e p, Carries container signed e p ∧
      container = toBytes (.dict (containerFields signed e p)) ∧
      ∀ other, Accepted other keys.ed25519Public.toList keys.mldsaPublic.toList →
        Carries other signed e p → (other = container ↔ NothingElse other) := by
  have hnothing : NothingElse container := carries_container.eq_toBytes_iff.mp container_eq
  obtain ⟨signed, e, p, hcarries, hexact, hother⟩ :=
    exact_container_iff
      (show Accepted container keys.ed25519Public.toList keys.mldsaPublic.toList from
        .inl ⟨certificate, verify_container.2⟩)
  exact ⟨hnothing, signed, e, p, hcarries, hexact.mpr hnothing,
    fun other h hc => hother other h hc hnothing⟩

end Sample

end Onestein.Identity
