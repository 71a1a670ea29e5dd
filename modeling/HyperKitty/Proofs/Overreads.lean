import HyperKitty.Proofs.Files

namespace HyperKitty.WormStorage

open Exec Bytes Buffer

variable {buf : List UInt8} {l : Lengths}

/-- A field that lies inside the buffer is copied if its block has room for it. -/
theorem copyField_isOk {offset len size : Nat} {terminator : List UInt8}
    (h : offset + len ≤ buf.length) (hsize : 0 < len → len + terminator.length ≤ size) :
    ∃ o, WormEntry.copyField buf offset len size terminator = .ok o := by
  have hp : buf.take offset ++ (buf.drop offset).take len <+: buf := by
    rw [← List.take_add]
    exact List.take_prefix _ _
  have hoffset : (buf.take offset).length = offset := List.length_take_of_le (by omega)
  have hlen : ((buf.drop offset).take len).length = len := by
    rw [List.length_take, List.length_drop]
    omega
  exact ⟨_, (WormEntry.copyField_ok_iff (List.take_prefix _ _) hoffset).mpr
    ⟨_, hlen, hp, hsize, rfl⟩⟩

/-- Past the length check an entry is read exactly if the three fields lie inside
the buffer and the metadata can be terminated in its block. -/
theorem deserialize_isOk_iff (hl : WormEntry.lengthCheck buf = .ok l) :
    (∃ e, WormEntry.deserialize buf = .ok e) ↔
      wormHeaderSize + l.exactLen ≤ buf.length ∧ l.metaLen.toNat + 1 < 2 ^ 32 := by
  obtain ⟨⟨flags, hp⟩, hheader, _⟩ := WormEntry.lengthCheck_ok_iff.mp hl
  constructor
  · intro h
    obtain ⟨e, he⟩ := h
    obtain ⟨f, hf, hroom, hpf, _⟩ := WormEntry.frame_of_deserialize he
    have hlf : f.lengths = l := by
      have h1 := readLengths_of_opening hp
      have h2 := readLengths_of_opening
        (f.opening_prefix_header.trans (f.header_prefix_toBytes.trans hpf))
      rw [h1, Except.ok.injEq] at h2
      exact h2.symm
    have hlen := hpf.length_le
    rw [Frame.length_toBytes, ← hf.exactLen, hlf] at hlen
    rw [← hf.lengths_toNat.2.2, hlf] at hroom
    exact ⟨hlen, hroom⟩
  · intro h
    obtain ⟨hlen, hroom⟩ := h
    unfold Lengths.exactLen at hlen
    rw [wormHeaderSize] at hlen hheader
    have h1 : ∃ ts, readLe64 buf 16 = .ok ts := readLe_isOk (by rw [width_uint64]; omega)
    have h2 : ∃ v, (readArray hashSize buf 24 : OrNull _) = .ok v :=
      readArray_isOk (by unfold hashSize; omega)
    have h3 : ∃ v, (readArray hashSize buf 56 : OrNull _) = .ok v :=
      readArray_isOk (by unfold hashSize; omega)
    have h4 : ∃ v, (readArray sigSize buf 88 : OrNull _) = .ok v :=
      readArray_isOk (by unfold sigSize; omega)
    have h5 : ∃ o, WormEntry.copyField buf wormHeaderSize l.eventLen.toNat
        (l.eventLen.toNat + 1) [0] = .ok o :=
      copyField_isOk (by unfold wormHeaderSize; omega) (by simp)
    have h6 : ∃ o, WormEntry.copyField buf (wormHeaderSize + l.eventLen.toNat) l.dataLen.toNat
        l.dataLen.toNat [] = .ok o :=
      copyField_isOk (by unfold wormHeaderSize; omega) (by simp)
    have h7 : ∃ o, WormEntry.copyField buf (wormHeaderSize + l.eventLen.toNat + l.dataLen.toNat)
        l.metaLen.toNat (l.metaLen + 1).toNat [0] = .ok o := by
      apply copyField_isOk (by unfold wormHeaderSize; omega)
      intro _
      rw [UInt32.toNat_add, UInt32.toNat_one, List.length_singleton]
      omega
    obtain ⟨ts, h1⟩ := h1
    obtain ⟨prev, h2⟩ := h2
    obtain ⟨content, h3⟩ := h3
    obtain ⟨sig, h4⟩ := h4
    obtain ⟨event, h5⟩ := h5
    obtain ⟨data, h6⟩ := h6
    obtain ⟨metadata, h7⟩ := h7
    rw [WormEntry.deserialize, hl, ok_bind, h1, ok_bind, h2, ok_bind, h3, ok_bind, h4, ok_bind]
    dsimp only
    rw [h5, ok_bind, h6, ok_bind, h7, ok_bind]
    exact ⟨_, rfl⟩

/-- The lengths of an acceptable header add up past 4 GiB, and the buffer is as
long as what the wrapped sum leaves but shorter than the sum. -/
def Wraps (buf : List UInt8) : Prop :=
  ∃ flags l, Lengths.opening flags l <+: buf ∧ wormHeaderSize ≤ buf.length ∧
    2 ^ 32 ≤ wormHeaderSize + l.exactLen ∧
    (wormHeaderSize + l.exactLen) % 2 ^ 32 ≤ buf.length ∧
    buf.length < wormHeaderSize + l.exactLen

theorem lengthCheck_exact_iff :
    (∀ l, WormEntry.lengthCheck buf = .ok l → wormHeaderSize + l.exactLen ≤ buf.length) ↔
      ¬ Wraps buf := by
  constructor
  · intro h hw
    obtain ⟨flags, l, hp, hheader, _, hwrapped, hshort⟩ := hw
    have hl := WormEntry.lengthCheck_ok_iff.mpr
      ⟨⟨flags, hp⟩, hheader, l.expectedLen_eq ▸ hwrapped⟩
    exact absurd (h l hl) (Nat.not_le.mpr hshort)
  · intro hw l hl
    obtain ⟨⟨flags, hp⟩, hheader, hexpected⟩ := WormEntry.lengthCheck_ok_iff.mp hl
    rw [Lengths.expectedLen_eq] at hexpected
    by_contra hshort
    have hlarge : 2 ^ 32 ≤ wormHeaderSize + l.exactLen := by
      by_contra hsmall
      rw [Nat.mod_eq_of_lt (Nat.not_le.mp hsmall)] at hexpected
      exact hshort hexpected
    exact hw ⟨flags, l, hp, hheader, hlarge, hexpected, Nat.not_le.mp hshort⟩

/-- The loop of `readFile` reads these lengths in this state. -/
def ReadState.Reads (s : ReadState) (l : Lengths) : Prop :=
  s.entries.length < maxEntries ∧ (s.rest.take wormHeaderSize).length = wormHeaderSize ∧
    readLengths (s.rest.take wormHeaderSize) = .ok l

theorem varLen_exact_iff : l.varLen = l.exactLen ↔ l.exactLen < 2 ^ 32 := by
  rw [Lengths.varLen_eq, Nat.mod_eq_iff_lt (by decide)]

/-- What gets past the length check is as long as its header says, and is read without leaving the
buffer, if only the metadata can be terminated in its block. -/
def ChecksLengths (buf : List UInt8) : Prop :=
  ∀ l, WormEntry.lengthCheck buf = .ok l → wormHeaderSize + l.exactLen ≤ buf.length ∧
    (l.metaLen.toNat + 1 < 2 ^ 32 → ∃ e, WormEntry.deserialize buf = .ok e)

theorem checksLengths_iff : ChecksLengths buf ↔ ¬ Wraps buf := by
  rw [← lengthCheck_exact_iff]
  constructor
  · exact fun h l hl => (h l hl).1
  · exact fun h l hl => ⟨h l hl, fun hroom => (deserialize_isOk_iff hl).mpr ⟨h l hl, hroom⟩⟩

/-- Both sums are exact, and every copy stays inside its buffer, as long as no header has lengths
that wrap. In a file every record that the loop comes to is then read as long as its header says. -/
theorem lengths_exact_iff (buf content : List UInt8) :
    (ChecksLengths buf ∧
        ∀ s l, Reaches readPass ⟨[], content⟩ s → s.Reads l → l.varLen = l.exactLen) ↔
      ¬ Wraps buf ∧
        ∀ s l, Reaches readPass ⟨[], content⟩ s → s.Reads l → l.exactLen < 2 ^ 32 := by
  apply and_congr checksLengths_iff
  constructor
  · intro h s l hs hl
    exact varLen_exact_iff.mp (h s l hs hl)
  · intro h s l hs hl
    exact varLen_exact_iff.mpr (h s l hs hl)

/-- A header and nothing else, which announces one byte of event type and almost
4 GiB of payload. -/
def wrappingHeader : List UInt8 :=
  Lengths.opening 0 ⟨1, 0xFFFFFFFF, 0⟩ ++ List.replicate 136 0

/-- The check lets the header pass as a record of 152 bytes, and the first copy
reads behind its end; as a file it is a record whose fields take no bytes. -/
theorem deserialize_reads_past_end :
    WormEntry.lengthCheck wrappingHeader = .ok ⟨1, 0xFFFFFFFF, 0⟩ ∧
      ¬ wormHeaderSize + (⟨1, 0xFFFFFFFF, 0⟩ : Lengths).exactLen ≤ wrappingHeader.length ∧
      WormEntry.deserialize wrappingHeader = .error .panic ∧
      (⟨[], wrappingHeader⟩ : ReadState).Reads ⟨1, 0xFFFFFFFF, 0⟩ ∧
      (⟨1, 0xFFFFFFFF, 0⟩ : Lengths).varLen = 0 ∧
      readFile wrappingHeader = .error .panic := by
  refine ⟨by decide +kernel, by decide +kernel, by decide +kernel, ⟨by decide, by decide +kernel,
    by decide +kernel⟩, by decide +kernel, by decide +kernel⟩

end HyperKitty.WormStorage
