import HyperKitty.Lib.CString
import HyperKitty.Proofs.Framing
import HyperKitty.Worm.Record

namespace HyperKitty.WormStorage

open Exec Bytes Buffer
open Worm (WormHeader WormRecord)

/-- The header carries what the frame does, with the bytes of every number reversed. -/
def Frame.Reversed (f : Frame) (h : WormHeader) : Prop :=
  h.Marked ∧ h.flags = f.flags ∧ swapBytes h.eventLength = f.lengths.eventLen ∧
    swapBytes h.dataLength = f.lengths.dataLen ∧ swapBytes h.metadataLength = f.lengths.metaLen ∧
    swapBytes h.timestampNs = f.timestampNs ∧ h.previousHash = f.prevHash ∧
    h.contentHash = f.contentHash ∧ h.signature = f.signature

theorem toBytes_eq_header_iff {h : WormHeader} {f : Frame} :
    h.toBytes = f.header ↔ f.Reversed h := by
  constructor
  · intro e
    obtain ⟨e, hsignature⟩ := List.append_inj' e (by simp)
    obtain ⟨e, hcontent⟩ := List.append_inj' e (by simp)
    obtain ⟨e, hprevious⟩ := List.append_inj' e (by simp)
    obtain ⟨e, htimestamp⟩ := List.append_inj' e (by simp)
    obtain ⟨e, hmetadata⟩ := List.append_inj' e (by simp)
    obtain ⟨e, hdata⟩ := List.append_inj' e (by simp)
    obtain ⟨e, hevent⟩ := List.append_inj' e (by simp)
    obtain ⟨e, hflags⟩ := List.append_inj' e (by simp)
    obtain ⟨hmagic, hversion⟩ := List.append_inj' e (by simp)
    simp only [List.cons.injEq, and_true] at hversion hflags
    exact ⟨⟨Vector.toList_inj.mp hmagic, hversion⟩, hflags, toBe_eq_toLe.mp hevent,
      toBe_eq_toLe.mp hdata, toBe_eq_toLe.mp hmetadata, toBe_eq_toLe.mp htimestamp,
      Vector.toList_inj.mp hprevious, Vector.toList_inj.mp hcontent,
      Vector.toList_inj.mp hsignature⟩
  · intro h
    obtain ⟨⟨hmagic, hversion⟩, hflags, hevent, hdata, hmetadata, htimestamp, hprevious, hcontent,
      hsignature⟩ := h
    rw [WormHeader.toBytes, Frame.header, hmagic, hversion, hflags, toBe_eq_toLe.mpr hevent,
      toBe_eq_toLe.mpr hdata, toBe_eq_toLe.mpr hmetadata, toBe_eq_toLe.mpr htimestamp, hprevious,
      hcontent, hsignature]
    rfl

/-- The Rust decoder accepts the header of every frame. -/
theorem fromBytes_header (f : Frame) :
    ∃ h, WormHeader.fromBytes f.toBytes = .ok h ∧ f.Reversed h := by
  let h : WormHeader := {
    magic := Worm.magicBytes
    version := Worm.currentVersion
    flags := f.flags
    eventLength := swapBytes f.lengths.eventLen
    dataLength := swapBytes f.lengths.dataLen
    metadataLength := swapBytes f.lengths.metaLen
    timestampNs := swapBytes f.timestampNs
    previousHash := f.prevHash
    contentHash := f.contentHash
    signature := f.signature }
  have hr : f.Reversed h := by
    refine ⟨⟨rfl, rfl⟩, rfl, ?_, ?_, ?_, ?_, rfl, rfl, rfl⟩
    all_goals exact swapBytes_swapBytes _
  refine ⟨h, WormHeader.fromBytes_ok_iff.mpr ⟨⟨rfl, rfl⟩, ?_⟩, hr⟩
  rw [toBytes_eq_header_iff.mpr hr]
  exact f.header_prefix_toBytes

/-- Every number of the frame reads the same in both byte orders. -/
def Frame.Symmetric (f : Frame) : Prop :=
  swapBytes f.lengths.eventLen = f.lengths.eventLen ∧
    swapBytes f.lengths.dataLen = f.lengths.dataLen ∧
    swapBytes f.lengths.metaLen = f.lengths.metaLen ∧ swapBytes f.timestampNs = f.timestampNs

/-- The record says what the frame says. -/
def Frame.SameAs (f : Frame) (r : WormRecord) : Prop :=
  r.eventType = f.event ∧ r.data = f.data ∧ r.metadata = f.metadata ∧
    r.header.previousHash = f.prevHash ∧ r.header.contentHash = f.contentHash ∧
    r.header.signature = f.signature ∧ r.header.timestampNs = f.timestampNs

/-- The Rust decoder understands a frame exactly when its numbers are symmetric. -/
theorem fromBytes_frame_iff {f : Frame} (hf : f.Fits) :
    (∃ r, WormRecord.fromBytes f.toBytes = .ok r ∧ f.SameAs r) ↔ f.Symmetric := by
  obtain ⟨l1, l2, l3⟩ := hf.lengths_toNat
  constructor
  · intro h
    obtain ⟨r, hr, hevent, hdata, hmetadata, _, _, _, htimestamp⟩ := h
    obtain ⟨_, ⟨he, hd, hm⟩, hp⟩ := WormRecord.fromBytes_ok_iff.mp hr
    have hheader : r.header.toBytes = f.header := by
      have hp' : r.header.toBytes <+: f.toBytes :=
        List.IsPrefix.trans (by simp [WormRecord.toBytes]) hp
      rw [List.prefix_iff_eq_take.mp hp', WormHeader.length_toBytes, Frame.toBytes,
        List.append_assoc, List.append_assoc]
      exact List.take_left' f.length_header
    obtain ⟨_, _, h1, h2, h3, h4, _, _, _⟩ := toBytes_eq_header_iff.mp hheader
    have e1 : r.header.eventLength = f.lengths.eventLen := by
      rw [← UInt16.toNat_inj, he, l1, hevent]
    have e2 : r.header.dataLength = f.lengths.dataLen := by
      rw [← UInt32.toNat_inj, hd, l2, hdata]
    have e3 : r.header.metadataLength = f.lengths.metaLen := by
      rw [← UInt32.toNat_inj, hm, l3, hmetadata]
    rw [e1] at h1
    rw [e2] at h2
    rw [e3] at h3
    rw [htimestamp] at h4
    exact ⟨h1, h2, h3, h4⟩
  · intro h
    obtain ⟨h1, h2, h3, h4⟩ := h
    let r : WormRecord := {
      header := {
        magic := Worm.magicBytes
        version := Worm.currentVersion
        flags := f.flags
        eventLength := f.lengths.eventLen
        dataLength := f.lengths.dataLen
        metadataLength := f.lengths.metaLen
        timestampNs := f.timestampNs
        previousHash := f.prevHash
        contentHash := f.contentHash
        signature := f.signature }
      eventType := f.event
      data := f.data
      metadata := f.metadata }
    have hheader : r.header.toBytes = f.header :=
      toBytes_eq_header_iff.mpr ⟨⟨rfl, rfl⟩, rfl, h1, h2, h3, h4, rfl, rfl, rfl⟩
    have hbytes : r.toBytes = f.toBytes := by
      rw [WormRecord.toBytes, hheader]
      rfl
    refine ⟨r, ?_, rfl, rfl, rfl, rfl, rfl, rfl, rfl⟩
    exact WormRecord.fromBytes_ok_iff.mpr ⟨⟨rfl, rfl⟩, ⟨l1, l2, l3⟩, hbytes ▸ List.prefix_rfl⟩

/-- The entry has the lengths, the payload and the timestamp of the record. -/
def WormEntry.Recovers (e : WormEntry) (r : WormRecord) : Prop :=
  (e.eventType.getD []).length = r.eventType.length ∧ e.payload.getD [] = r.data ∧
    (e.metadata.getD []).length = r.metadata.length ∧ e.timestampNs = r.header.timestampNs

/-- Read with their bytes reversed, the numbers in the header are still the
lengths of the parts and the timestamp. -/
def Reversible (r : WormRecord) : Prop :=
  r.header.Marked ∧ (swapBytes r.header.eventLength).toNat = r.eventType.length ∧
    (swapBytes r.header.dataLength).toNat = r.data.length ∧
    (swapBytes r.header.metadataLength).toNat = r.metadata.length ∧
    swapBytes r.header.timestampNs = r.header.timestampNs ∧ r.metadata.length + 1 < 2 ^ 32

/-- The C decoder understands a Rust record exactly when it is reversible. -/
theorem deserialize_record_iff {r : WormRecord} :
    (∃ e, WormEntry.deserialize r.toBytes = .ok e ∧ e.Recovers r) ↔ Reversible r := by
  constructor
  · intro h
    obtain ⟨e, he, hevent, hdata, hmetadata, htimestamp⟩ := h
    obtain ⟨f, hf, hroom, hp, rfl⟩ := WormEntry.frame_of_deserialize he
    obtain ⟨l1, l2, l3⟩ := hf.lengths_toNat
    simp only [Frame.toEntry, Frame.field_getD] at hevent hdata hmetadata htimestamp
    have hheader : r.header.toBytes = f.header := by
      have hp' : f.header <+: r.toBytes := f.header_prefix_toBytes.trans hp
      rw [List.prefix_iff_eq_take.mp hp', Frame.length_header, WormRecord.toBytes,
        List.append_assoc, List.append_assoc]
      exact (List.take_left' r.header.length_toBytes).symm
    obtain ⟨hmarked, _, h1, h2, h3, h4, _, _, _⟩ := toBytes_eq_header_iff.mp hheader
    refine ⟨hmarked, ?_, ?_, ?_, ?_, hmetadata ▸ hroom⟩
    · rw [h1, l1, hevent]
    · rw [h2, l2, hdata]
    · rw [h3, l3, hmetadata]
    · rw [h4, htimestamp]
  · intro h
    obtain ⟨hmarked, h1, h2, h3, h4, hroom⟩ := h
    let f : Frame := {
      flags := r.header.flags
      timestampNs := r.header.timestampNs
      prevHash := r.header.previousHash
      contentHash := r.header.contentHash
      signature := r.header.signature
      event := r.eventType
      data := r.data
      metadata := r.metadata }
    have hf : f.Fits := by
      refine ⟨?_, ?_, ?_⟩
      · exact h1 ▸ (swapBytes r.header.eventLength).toNat_lt
      · exact h2 ▸ (swapBytes r.header.dataLength).toNat_lt
      · exact h3 ▸ (swapBytes r.header.metadataLength).toNat_lt
    obtain ⟨l1, l2, l3⟩ := hf.lengths_toNat
    have e1 : swapBytes r.header.eventLength = f.lengths.eventLen :=
      UInt16.toNat_inj.mp (h1.trans l1.symm)
    have e2 : swapBytes r.header.dataLength = f.lengths.dataLen :=
      UInt32.toNat_inj.mp (h2.trans l2.symm)
    have e3 : swapBytes r.header.metadataLength = f.lengths.metaLen :=
      UInt32.toNat_inj.mp (h3.trans l3.symm)
    have hheader : r.header.toBytes = f.header :=
      toBytes_eq_header_iff.mpr ⟨hmarked, rfl, e1, e2, e3, h4, rfl, rfl, rfl⟩
    have hbytes : f.toBytes = r.toBytes := by
      rw [WormRecord.toBytes, hheader]
      rfl
    refine ⟨f.toEntry, WormEntry.deserialize_of_prefix hf hroom ?_, ?_⟩
    · exact hbytes ▸ List.prefix_rfl
    · simp [WormEntry.Recovers, Frame.toEntry, f]

/-- The two formats are one up to the byte order of their numbers: the Rust side
reads every header of the C side with its numbers reversed, and each side
recovers what the other one wrote exactly when that order does not matter. -/
theorem codecs_interoperate_iff (e : WormEntry) (ns : UInt64) (r : WormRecord)
    (hevent : e.eventText.length < 2 ^ 16)
    (hsize : wormHeaderSize +
      (e.eventText.length + e.payloadBytes.length + e.metaText.length) < 2 ^ 32) :
    (∃ bytes h, e.serialize ns = .ok bytes ∧ WormHeader.fromBytes bytes = .ok h ∧
        (e.frame ns).Reversed h) ∧
      ((∃ bytes r, e.serialize ns = .ok bytes ∧ WormRecord.fromBytes bytes = .ok r ∧
        (e.frame ns).SameAs r) ↔ (e.frame ns).Symmetric) ∧
      ((∃ e, WormEntry.deserialize r.toBytes = .ok e ∧ e.Recovers r) ↔ Reversible r) := by
  have hs : e.serialize ns = .ok (e.frame ns).toBytes := WormEntry.serialize_eq hevent hsize
  have hf : (e.frame ns).Fits := Frame.fits_of_small hevent hsize
  obtain ⟨header, hheader, hreversed⟩ := fromBytes_header (e.frame ns)
  refine ⟨⟨_, header, hs, hheader, hreversed⟩, ?_, deserialize_record_iff⟩
  rw [← fromBytes_frame_iff hf]
  constructor
  · intro h
    obtain ⟨bytes, r, hb, hr⟩ := h
    rw [hs, Except.ok.injEq] at hb
    exact ⟨r, hb ▸ hr⟩
  · intro h
    obtain ⟨r, hr⟩ := h
    exact ⟨_, r, hs, hr⟩

/-- An entry about a tick, in the year 1970. -/
def tickEntry : WormEntry :=
  { WormEntry.alloc with
    eventType := some (CString.ascii "tick")
    payload := some [1, 2, 3]
    metadata := some [0x7B, 0x7D]
    prevHash := Vector.replicate hashSize 7
    contentHash := Vector.replicate hashSize 9 }

/-- The record of it. -/
def tickRecord : WormRecord :=
  .new
    { Worm.WormHeader.new with
      eventLength := 4
      dataLength := 3
      metadataLength := 2
      timestampNs := 1000
      previousHash := Vector.replicate 32 7
      contentHash := Vector.replicate 32 9 }
    (CString.ascii "tick") [1, 2, 3] [0x7B, 0x7D]

theorem codecs_interoperate_tick :
    (∃ bytes h, tickEntry.serialize 1000 = .ok bytes ∧ WormHeader.fromBytes bytes = .ok h ∧
        (tickEntry.frame 1000).Reversed h) ∧
      ((∃ bytes r, tickEntry.serialize 1000 = .ok bytes ∧ WormRecord.fromBytes bytes = .ok r ∧
        (tickEntry.frame 1000).SameAs r) ↔ (tickEntry.frame 1000).Symmetric) ∧
      ((∃ e, WormEntry.deserialize tickRecord.toBytes = .ok e ∧ e.Recovers tickRecord) ↔
        Reversible tickRecord) :=
  codecs_interoperate_iff tickEntry 1000 tickRecord (by decide +kernel) (by decide +kernel)

/-- The length of an event type of one byte reads as 256 on the other side. -/
theorem serialize_one_byte_event :
    let e : WormEntry := { WormEntry.alloc with eventType := some [0x65] }
    ∃ bytes, e.serialize 0 = .ok bytes ∧
      ¬ ∃ r, WormRecord.fromBytes bytes = .ok r ∧ (e.frame 0).SameAs r := by
  intro e
  refine ⟨_, WormEntry.serialize_eq (by decide) (by decide), ?_⟩
  rw [fromBytes_frame_iff (Frame.fits_of_small (by decide) (by decide))]
  intro h
  exact absurd h.1 (by decide +kernel)

end HyperKitty.WormStorage
