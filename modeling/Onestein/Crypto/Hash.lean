import Onestein.Lib.Bytes

/-!
# The hash construction

The multi-argument hash frames each argument with its length and hashes the frames. BLAKE2b
itself is a parameter: the plain hash and the keyed one, as functions of the bytes they are
fed.

## Main definitions

* `hash`, `prf`, `kdf` — the constructions over BLAKE2b.

## Main results

* `frame_injective`, `frame_pair_injective` — the frames fix the arguments.
* `arguments_unique` — and so do the two constructions that hash them.
-/

namespace Onestein.Crypto

/-- Length of every hash in bytes. -/
abbrev hashLen : Nat := 32

abbrev Digest := Octets hashLen

/-- BLAKE2b with a 32-byte output, plain and keyed. -/
class Blake2b where
  digest : Bytes → Digest
  keyed : Digest → Bytes → Digest

/-- A stand-in that can be run where the constructions are tried on a concrete input: the
bytes as one number, modulo a prime of 256 bits. -/
abbrev checksum : Blake2b where
  digest message := Octets.be 32 (Bytes.val (1 :: message) % (2 ^ 256 - 189))
  keyed key message := Octets.be 32 (Bytes.val (2 :: (key.toList ++ message)) % (2 ^ 256 - 189))

/-- The arguments, each behind its length as a 32-bit integer. An argument longer than that
makes the source panic. -/
def frame (parts : List Bytes) : Bytes :=
  (parts.map fun part => Bytes.be 4 part.length ++ part).flatten

/-- The longest argument the construction can express is shorter than this. -/
def maxPart : Nat := 2 ^ 32

@[simp] theorem frame_nil : frame [] = [] := rfl

@[simp] theorem frame_cons (part : Bytes) (parts : List Bytes) :
    frame (part :: parts) = Bytes.be 4 part.length ++ (part ++ frame parts) := by
  simp [frame]

/-- No boundary between arguments can be moved, and no argument added, dropped or merged. -/
theorem frame_injective {ps qs : List Bytes} (hps : ∀ p ∈ ps, p.length < maxPart)
    (hqs : ∀ q ∈ qs, q.length < maxPart) (h : frame ps = frame qs) : ps = qs := by
  induction ps generalizing qs with
  | nil =>
    cases qs with
    | nil => rfl
    | cons q qs =>
      have hlen := congrArg List.length h
      simp at hlen
      omega
  | cons p ps ih =>
    cases qs with
    | nil =>
      have hlen := congrArg List.length h
      simp at hlen
    | cons q qs =>
      rw [frame_cons, frame_cons] at h
      obtain ⟨hlen, hrest⟩ := List.append_inj h (by simp)
      have hlen' := Bytes.be_injective (hps p (by simp)) (hqs q (by simp)) hlen
      obtain ⟨rfl, hframe⟩ := List.append_inj hrest hlen'
      have htail := ih (fun r hr => hps r (by simp [hr])) (fun r hr => hqs r (by simp [hr])) hframe
      rw [htail]

/-- A first argument is fixed, and so is what is fed for the others. -/
theorem frame_cons_injective {p q : Bytes} {ps qs : List Bytes} (hp : p.length < maxPart)
    (hq : q.length < maxPart) (h : frame (p :: ps) = frame (q :: qs)) :
    p = q ∧ frame ps = frame qs := by
  rw [frame_cons, frame_cons] at h
  obtain ⟨hlen, hrest⟩ := List.append_inj h (by simp)
  exact List.append_inj hrest (Bytes.be_injective hp hq hlen)

/-- With two arguments only the length of the first one has to be told. -/
theorem frame_pair_injective {p q p' q' : Bytes} (hp : p.length < maxPart)
    (hp' : p'.length < maxPart) (h : frame [p, q] = frame [p', q']) : p = p' ∧ q = q' := by
  simp only [frame_cons, frame_nil, List.append_nil] at h
  obtain ⟨hlen, hrest⟩ := List.append_inj h (by simp)
  have hlen' := Bytes.be_injective hp hp' hlen
  obtain ⟨rfl, hframe⟩ := List.append_inj hrest hlen'
  obtain ⟨-, rfl⟩ := List.append_inj hframe (by simp)
  exact ⟨rfl, rfl⟩

/-- After the same arguments the last one is fixed, however long it is. -/
theorem frame_concat_injective (ps : List Bytes) {p q : Bytes}
    (h : frame (ps ++ [p]) = frame (ps ++ [q])) : p = q := by
  simp only [frame, List.map_append, List.map_singleton, List.flatten_append,
    List.flatten_singleton] at h
  have hlast := List.append_cancel_left h
  exact (List.append_inj hlast (by simp)).2

theorem frame_append (ps qs : List Bytes) : frame (ps ++ qs) = frame ps ++ frame qs := by
  simp [frame]

/-- Two arguments are fixed by the length of the second one, however long the first one is. -/
theorem frame_pair_injective_of_length {p q p' q' : Bytes} (hlen : q.length = q'.length)
    (h : frame [p, q] = frame [p', q']) : p = p' ∧ q = q' := by
  have htotal := congrArg List.length h
  simp only [frame_cons, frame_nil, List.append_nil, List.length_append, Bytes.length_be] at htotal
  simp only [frame_cons, frame_nil, List.append_nil] at h
  obtain ⟨-, hrest⟩ := List.append_inj h (by simp)
  obtain ⟨rfl, hlast⟩ := List.append_inj hrest (by omega)
  exact ⟨rfl, (List.append_inj hlast (by simp)).2⟩

section Constructions

variable [Blake2b]

/-- The multi-argument hash function. -/
def hash (parts : List Bytes) : Digest := Blake2b.digest (frame parts)

/-- The pseudo-random function: keyed BLAKE2b over the message as given. -/
def prf (key : Digest) (message : Bytes) : Digest := Blake2b.keyed key message

/-- The key derivation function: keyed BLAKE2b over the framed arguments. -/
def kdf (key : Digest) (parts : List Bytes) : Digest := Blake2b.keyed key (frame parts)

/-- Where BLAKE2b has no collision among some inputs, the hash has none either. -/
theorem hash_injective {inputs : Set Bytes} (hcol : Set.InjOn Blake2b.digest inputs)
    {ps qs : List Bytes} (hp : frame ps ∈ inputs) (hq : frame qs ∈ inputs)
    (hps : ∀ p ∈ ps, p.length < maxPart) (hqs : ∀ q ∈ qs, q.length < maxPart)
    (h : hash ps = hash qs) : ps = qs :=
  frame_injective hps hqs (hcol hp hq h)

/-- Where keyed BLAKE2b has no collision among some keys and inputs, the derivation has none. -/
theorem kdf_injective {inputs : Set (Digest × Bytes)}
    (hcol : Set.InjOn (fun input : Digest × Bytes => Blake2b.keyed input.1 input.2) inputs)
    {key key' : Digest} {ps qs : List Bytes} (hp : (key, frame ps) ∈ inputs)
    (hq : (key', frame qs) ∈ inputs) (hps : ∀ p ∈ ps, p.length < maxPart)
    (hqs : ∀ q ∈ qs, q.length < maxPart) (h : kdf key ps = kdf key' qs) : key = key' ∧ ps = qs := by
  obtain ⟨hkey, hframe⟩ := Prod.mk.inj (hcol hp hq h)
  exact ⟨hkey, frame_injective hps hqs hframe⟩

/-- The arguments are fixed by what is fed to BLAKE2b, and where BLAKE2b has no collision
between the two inputs also by what comes out. -/
theorem arguments_unique (ps qs : List Bytes) (hps : ∀ p ∈ ps, p.length < maxPart)
    (hqs : ∀ q ∈ qs, q.length < maxPart) :
    (frame ps = frame qs → ps = qs) ∧
    (Set.InjOn Blake2b.digest {frame ps, frame qs} → hash ps = hash qs → ps = qs) ∧
    ∀ key, Set.InjOn (Blake2b.keyed key) {frame ps, frame qs} → kdf key ps = kdf key qs →
      ps = qs := by
  have hframe : frame ps = frame qs → ps = qs := frame_injective hps hqs
  refine ⟨hframe, fun hcol h => ?_, fun key hcol h => ?_⟩
  · apply hframe
    exact Set.injOn_pair.mp hcol h
  · apply hframe
    exact Set.injOn_pair.mp hcol h

end Constructions

/-- Moving the boundary between two arguments changes the frames and the hash. -/
theorem arguments_unique_boundary :
    frame [[0x61], [0x62, 0x63]] ≠ frame [[0x61, 0x62], [0x63]] ∧
      @hash checksum [[0x61], [0x62, 0x63]] ≠ @hash checksum [[0x61, 0x62], [0x63]] := by
  let _ := checksum
  have hne : [[0x61], [0x62, 0x63]] ≠ ([[0x61, 0x62], [0x63]] : List Bytes) := by decide
  obtain ⟨hframe, hhash, -⟩ := arguments_unique [[0x61], [0x62, 0x63]] [[0x61, 0x62], [0x63]]
    (by decide) (by decide)
  have hcol : Set.InjOn Blake2b.digest
      {frame [[0x61], [0x62, 0x63]], frame [[0x61, 0x62], [0x63]]} := by
    apply Set.injOn_pair.mpr
    intro h
    exact absurd h (by decide +kernel)
  exact ⟨fun h => hne (hframe h), fun h => hne (hhash hcol h)⟩

end Onestein.Crypto
