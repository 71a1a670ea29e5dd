import HyperKitty.WormStorage.Frame

namespace HyperKitty.WormStorage

open Exec Bytes Buffer

variable {buf p : List UInt8} {l : Lengths} {e : WormEntry}

/-- Six bytes in, the lengths are read exactly as they are written. -/
theorem readLengths_ok_iff (hb : p <+: buf) (hp : p.length = 6) : readLengths buf = .ok l ↔
    p ++ toLe l.eventLen ++ toLe l.dataLen ++ toLe l.metaLen <+: buf := by
  constructor
  · intro h
    simp only [readLengths, readLe16, readLe32, bind_ok, pure_eq, Except.ok.injEq] at h
    obtain ⟨event, h1, data, h2, metadata, h3, rfl⟩ := h
    have p1 := prefix_of_readLe h1 hb hp
    have p2 := prefix_of_readLe h2 p1 (by simp [hp])
    exact prefix_of_readLe h3 p2 (by simp [hp])
  · intro h
    have p2 := (List.prefix_append _ _).trans h
    have p1 := (List.prefix_append _ _).trans p2
    rw [readLengths, readLe16, readLe_of_prefix p1 hp, ok_bind, readLe32,
      readLe_of_prefix p2 (by simp [hp]), ok_bind, readLe32,
      readLe_of_prefix h (by simp [hp]), ok_bind, pure_eq]

/-- The lengths at the front of a record are read back. -/
theorem readLengths_of_opening {flags : UInt8} (h : l.opening flags <+: buf) :
    readLengths buf = .ok l := by
  have p2 := (List.prefix_append _ _).trans h
  have p1 := (List.prefix_append _ _).trans p2
  have p0 := (List.prefix_append _ _).trans p1
  exact (readLengths_ok_iff p0 rfl).mpr h

namespace WormEntry

/-- A buffer gets past the length check exactly when it opens as a record and is
as long as the wrapped sum of its lengths. -/
theorem lengthCheck_ok_iff : lengthCheck buf = .ok l ↔
    (∃ flags, l.opening flags <+: buf) ∧ wormHeaderSize ≤ buf.length ∧
      l.expectedLen ≤ buf.length := by
  constructor
  · intro h
    unfold lengthCheck at h
    split at h
    · cases h
    rename_i hlen
    obtain ⟨magic, h1, h⟩ := (bind_ok _ _ _).mp h
    split at h
    · cases h
    rename_i hmagic
    obtain ⟨version, h2, h⟩ := (bind_ok _ _ _).mp h
    split at h
    · cases h
    rename_i hversion
    obtain ⟨l', h3, h⟩ := (bind_ok _ _ _).mp h
    split at h
    · cases h
    rename_i hexpected
    cases h
    have p1 := (prefix_of_slice h1 List.nil_prefix rfl).1
    rw [List.nil_append, not_not.mp hmagic] at p1
    have p2 := prefix_of_readByte h2 p1 rfl
    rw [not_not.mp hversion] at p2
    obtain ⟨rest, rfl⟩ := p2
    cases rest with
    | nil => simp [wormHeaderSize, wormMagic] at hlen
    | cons flags rest =>
      have p3 : wormMagic ++ [wormVersion] ++ [flags] <+:
          wormMagic ++ [wormVersion] ++ flags :: rest := ⟨rest, by simp⟩
      exact ⟨⟨flags, (readLengths_ok_iff p3 rfl).mp h3⟩, Nat.not_lt.mp hlen,
        Nat.not_lt.mp hexpected⟩
  · intro h
    obtain ⟨⟨flags, p6⟩, hlen, hexpected⟩ := h
    have p5 := (List.prefix_append _ _).trans p6
    have p4 := (List.prefix_append _ _).trans p5
    have p3 := (List.prefix_append _ _).trans p4
    have p2 := (List.prefix_append _ _).trans p3
    have p1 := (List.prefix_append _ _).trans p2
    have hmagic : (slice buf 0 4 : OrNull _) = .ok wormMagic :=
      slice_of_prefix (p := []) p1 rfl rfl
    rw [lengthCheck, if_neg (Nat.not_lt.mpr hlen), hmagic, ok_bind, if_neg (not_not.mpr rfl),
      readByte_of_prefix p2 (by rfl), ok_bind, if_neg (not_not.mpr rfl), readLengths_of_opening p6,
      ok_bind, if_neg (Nat.not_lt.mpr hexpected), pure_eq]

/-- A field is copied exactly when its bytes and its terminator fit their block. -/
theorem copyField_ok_iff {offset len size : Nat} {terminator : List UInt8}
    {o : Option (List UInt8)} (hb : p <+: buf) (hp : p.length = offset) :
    copyField buf offset len size terminator = .ok o ↔ ∃ bs, bs.length = len ∧ p ++ bs <+: buf ∧
      (0 < len → len + terminator.length ≤ size) ∧ o = Frame.field bs := by
  unfold copyField
  split
  · rename_i hpos
    constructor
    · intro h
      obtain ⟨bs, h1, h⟩ := (bind_ok _ _ _).mp h
      obtain ⟨block, h2, h⟩ := (bind_ok _ _ _).mp h
      cases h
      obtain ⟨p1, hl⟩ := prefix_of_slice h1 hb hp
      have hlen : bs.length = len := by omega
      have hfit := store_isOk_iff.mp ⟨block, h2⟩
      refine ⟨bs, hlen, p1, ?_, by simp [Frame.field, hlen, hpos]⟩
      intro _
      simpa [hlen] using hfit
    · intro h
      obtain ⟨bs, hlen, p1, hfit, rfl⟩ := h
      have hstore : 0 + (bs ++ terminator).length ≤ (List.replicate size (0 : UInt8)).length := by
        simpa [hlen] using hfit hpos
      obtain ⟨block, h2⟩ := store_isOk_iff (ε := Unit).mpr hstore
      rw [ slice_of_prefix p1 hp (by rw [hlen]), ok_bind, h2, ok_bind, pure_eq, Frame.field, hlen,
        if_pos hpos]
  · rename_i hzero
    constructor
    · intro h
      cases h
      exact ⟨[], by simp; omega, by simpa using hb, fun h => absurd h hzero, rfl⟩
    · intro h
      obtain ⟨bs, hlen, _, _, rfl⟩ := h
      rw [pure_eq, Frame.field, hlen, if_neg hzero]

theorem frame_of_deserialize (h : deserialize buf = .ok e) : ∃ f : Frame, f.Fits ∧
    f.metadata.length + 1 < 2 ^ 32 ∧ f.toBytes <+: buf ∧ e = f.toEntry := by
  unfold deserialize at h
  obtain ⟨l, hl, h⟩ := (bind_ok _ _ _).mp h
  obtain ⟨⟨flags, p0⟩, _, _⟩ := lengthCheck_ok_iff.mp hl
  simp only [readLe64, bind_ok, pure_eq, Except.ok.injEq] at h
  obtain ⟨ts, h1, prev, h2, content, h3, sig, h4, event, h5, data, h6, metadata, h7, rfl⟩ := h
  have p1 := prefix_of_readLe h1 p0 (by simp)
  have p2 := prefix_of_readArray h2 p1 (by simp)
  have p3 := prefix_of_readArray h3 p2 (by simp [hashSize])
  have p4 := prefix_of_readArray h4 p3 (by simp [hashSize])
  have l4 : (l.opening flags ++ toLe ts ++ prev.toList ++ content.toList ++ sig.toList).length =
      wormHeaderSize := by simp [hashSize, sigSize, wormHeaderSize]
  obtain ⟨b5, e5, p5, _, rfl⟩ := (copyField_ok_iff p4 l4).mp h5
  have l5 := congrArg₂ (· + ·) l4 e5
  rw [← List.length_append] at l5
  obtain ⟨b6, e6, p6, _, rfl⟩ := (copyField_ok_iff p5 l5).mp h6
  have l6 := congrArg₂ (· + ·) l5 e6
  rw [← List.length_append] at l6
  obtain ⟨b7, e7, p7, hsize, rfl⟩ := (copyField_ok_iff p6 l6).mp h7
  have hlengths : Frame.lengths ⟨flags, ts, prev, content, sig, b5, b6, b7⟩ = l := by
    simp [Frame.lengths, e5, e6, e7]
  refine ⟨⟨flags, ts, prev, content, sig, b5, b6, b7⟩, ?_, ?_, ?_, rfl⟩
  · simp only [Frame.Fits, e5, e6, e7]
    exact ⟨l.eventLen.toNat_lt, l.dataLen.toNat_lt, l.metaLen.toNat_lt⟩
  · have hmeta := l.metaLen.toNat_lt
    simp at hsize
    simp only [e7]
    omega
  · rw [Frame.toBytes, Frame.header_eq, hlengths]
    exact p7

theorem deserialize_of_prefix {f : Frame} (hf : f.Fits) (hmeta : f.metadata.length + 1 < 2 ^ 32)
    (p7 : f.toBytes <+: buf) : deserialize buf = .ok f.toEntry := by
  obtain ⟨e5, e6, e7⟩ := hf.lengths_toNat
  have p6 := (List.prefix_append _ _).trans p7
  have p5 := (List.prefix_append _ _).trans p6
  have p4 := (List.prefix_append _ _).trans p5
  have p3 := (List.prefix_append _ _).trans p4
  have p2 := (List.prefix_append _ _).trans p3
  have p1 := (List.prefix_append _ _).trans p2
  have p0 := f.opening_prefix_header.trans p4
  have hlen := p4.length_le
  rw [Frame.length_header] at hlen
  have hcheck := lengthCheck_ok_iff.mpr
    ⟨⟨f.flags, p0⟩, hlen, hf.expectedLen_le.trans p7.length_le⟩
  have hroom : 0 < f.lengths.metaLen.toNat →
      f.lengths.metaLen.toNat + [(0 : UInt8)].length ≤ (f.lengths.metaLen + 1).toNat := by
    intro _
    rw [UInt32.toNat_add, e7]
    simp only [List.length_singleton, UInt32.toNat_one]
    omega
  rw [deserialize, hcheck, ok_bind, readLe64, readLe_of_prefix p1 (by simp), ok_bind,
    readArray_of_prefix p2 (by simp), ok_bind,
    readArray_of_prefix p3 (by simp [hashSize]), ok_bind,
    readArray_of_prefix p4 (by simp [hashSize]), ok_bind]
  dsimp only
  rw [(copyField_ok_iff p4 (by simp)).mpr ⟨f.event, e5.symm, p5, by simp, rfl⟩, ok_bind,
    (copyField_ok_iff p5 (by simp [e5])).mpr ⟨f.data, e6.symm, p6, by simp, rfl⟩, ok_bind,
    (copyField_ok_iff p6 (by simp [e5, e6, Nat.add_assoc])).mpr
      ⟨f.metadata, e7.symm, p7, hroom, rfl⟩, ok_bind, pure_eq]
  rfl

theorem storeField_filled {size offset len : Nat} {o : Option (List UInt8)} {bs : List UInt8}
    (hbs : (o.getD []).take len = bs) (hlen : bs.length = len) (hp : p.length = offset)
    (hs : offset + len ≤ size) :
    storeField (filled size p) offset len o = .ok (filled size (p ++ bs), offset + len) := by
  cases o with
  | none =>
    have hnil : bs = [] := by simpa using hbs.symm
    rw [hnil] at hlen ⊢
    rw [storeField, ← hlen, List.append_nil, pure_eq]
    rfl
  | some s =>
    rw [Option.getD_some] at hbs
    rw [storeField, hbs, store_filled hp (by omega), ok_bind, pure_eq]

/-- An entry below 4 GiB is written as its frame. -/
theorem serialize_eq {ns : UInt64} (hevent : (e.frame ns).event.length < 2 ^ 16)
    (hsize : wormHeaderSize + (e.frame ns).bodyLength < 2 ^ 32) :
    e.serialize ns = .ok (e.frame ns).toBytes := by
  have hf : (e.frame ns).Fits := Frame.fits_of_small hevent hsize
  obtain ⟨l1, l2, l3⟩ := hf.lengths_toNat
  have htotal := hf.expectedLen hsize
  have h1 : (e.eventType.getD []).take (e.frame ns).event.length = (e.frame ns).event :=
    take_strlen _
  have h2 : (e.payload.getD []).take (e.frame ns).data.length = (e.frame ns).data :=
    List.take_length
  have h3 : (e.metadata.getD []).take (e.frame ns).metadata.length = (e.frame ns).metadata :=
    take_strlen _
  have hlen := (e.frame ns).length_toBytes
  rw [← htotal, Frame.bodyLength, wormHeaderSize] at hlen
  rw [serialize, ← e.lengths_frame ns, wormHeaderSize]
  dsimp only
  rw [l1, l2, l3]
  generalize (e.frame ns).lengths.expectedLen = size at hlen htotal
  rw [← filled_nil,
    store_filled (by rfl) (by simp; omega), ok_bind,
    store_filled (by rfl) (by simp; omega), ok_bind,
    store_filled (by rfl) (by simp; omega), ok_bind, writeLe16,
    store_filled (by simp) (by simp; omega), ok_bind, writeLe32,
    store_filled (by simp) (by simp; omega), ok_bind, writeLe32,
    store_filled (by simp) (by simp; omega), ok_bind, writeLe64,
    store_filled (by simp) (by simp; omega), ok_bind,
    store_filled (by simp) (by simp [hashSize]; omega), ok_bind,
    store_filled (by simp [hashSize]) (by simp [hashSize]; omega), ok_bind,
    store_filled (by simp [hashSize]) (by simp [sigSize]; omega), ok_bind,
    storeField_filled h1 rfl (by simp [hashSize, sigSize]) (by omega), ok_bind]
  dsimp only
  rw [storeField_filled h2 rfl (by simp [hashSize, sigSize]; omega) (by omega), ok_bind]
  dsimp only
  rw [storeField_filled h3 rfl (by simp [hashSize, sigSize]; omega) (by omega), ok_bind, pure_eq,
    filled_full (by simp [hashSize, sigSize]; omega)]
  rfl

end WormEntry

end HyperKitty.WormStorage
