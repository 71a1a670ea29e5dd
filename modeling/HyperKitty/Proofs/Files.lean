import HyperKitty.Proofs.EntryChains
import HyperKitty.Proofs.Framing

namespace HyperKitty.WormStorage

open Exec Bytes Buffer

variable {clock : Nat → UInt64} {es : List WormEntry} {rest : List UInt8}

/-- A frame whose record stays below 4 GiB. -/
def Frame.Small (f : Frame) : Prop :=
  f.event.length < 2 ^ 16 ∧ wormHeaderSize + f.bodyLength < 2 ^ 32

theorem Frame.Small.fits {f : Frame} (h : f.Small) : f.Fits := Frame.fits_of_small h.1 h.2

theorem deserialize_frame {f : Frame} (h : f.Small) :
    WormEntry.deserialize f.toBytes = .ok f.toEntry := by
  have hsize := h.2
  unfold Frame.bodyLength at hsize
  have hroom : f.metadata.length + 1 < 2 ^ 32 := by
    unfold wormHeaderSize at hsize
    omega
  exact WormEntry.deserialize_of_prefix h.fits hroom List.prefix_rfl

/-- One pass reads one frame. -/
theorem readPass_frame {f : Frame} (h : f.Small) (hcount : es.length < maxEntries) :
    readPass ⟨es, f.toBytes ++ rest⟩ = .ok (.next ⟨es ++ [f.toEntry], rest⟩) := by
  let body := f.event ++ f.data ++ f.metadata
  have hbody : body.length = f.bodyLength := by simp [body, Frame.bodyLength, Nat.add_assoc]
  have hbytes : f.toBytes = f.header ++ body := by simp [Frame.toBytes, body]
  have htake : (f.toBytes ++ rest).take wormHeaderSize = f.header := by
    rw [hbytes, List.append_assoc]
    exact List.take_left' f.length_header
  have hdrop : (f.toBytes ++ rest).drop wormHeaderSize = body ++ rest := by
    rw [hbytes, List.append_assoc]
    exact List.drop_left' f.length_header
  have hvar := h.fits.varLen h.2
  rw [readPass]
  dsimp only
  rw [htake, hdrop, if_pos ⟨hcount, f.length_header⟩,
    readLengths_of_opening f.opening_prefix_header, ok_bind, hvar, List.take_left' hbody,
    List.drop_left' hbody, if_neg (not_not.mpr hbody), ← hbytes, deserialize_frame h]
  rfl

theorem readPass_end (hshort : rest.length < wormHeaderSize) :
    readPass ⟨es, rest⟩ = .ok (.done es) := by
  have hne : ¬ (es.length < maxEntries ∧ (rest.take wormHeaderSize).length = wormHeaderSize) := by
    rw [List.length_take]
    omega
  rw [readPass]
  dsimp only
  rw [if_neg hne, pure_eq]

/-- Frames that are written one after the other are read back one by one. -/
theorem readLoop_frames {fs : List Frame} {n : Nat} (hs : ∀ f ∈ fs, f.Small)
    (hcount : es.length + fs.length ≤ maxEntries) (hn : fs.length < n) :
    loop n readPass ⟨es, (fs.map Frame.toBytes).flatten⟩ = .ok (es ++ fs.map Frame.toEntry) := by
  induction fs generalizing es n with
  | nil =>
    obtain ⟨n, rfl⟩ := Nat.exists_eq_succ_of_ne_zero (Nat.ne_of_gt hn)
    have hend : readPass ⟨es, []⟩ = .ok (.done es) := readPass_end (by decide)
    simpa using loop_done (n := n) hend
  | cons f fs ih =>
    obtain ⟨n, rfl⟩ := Nat.exists_eq_succ_of_ne_zero (Nat.ne_of_gt (Nat.zero_lt_of_lt hn))
    rw [List.length_cons] at hcount hn
    rw [List.map_cons, List.flatten_cons,
      loop_next (readPass_frame (hs f List.mem_cons_self) (by omega)),
      ih (fun g hg => hs g (List.mem_cons_of_mem f hg)) (by simp; omega) (by omega),
      List.map_cons, List.append_assoc, List.singleton_append]

/-- The frames that entries are written as from entry `i` on. -/
def frames (clock : Nat → UInt64) : Nat → List WormEntry → List Frame
  | _, [] => []
  | i, e :: es => e.frame (clock i) :: frames clock (i + 1) es

/-- The texts of the entry end where their blocks do, and its record stays below
4 GiB with an event type below 64 KiB. -/
structure WormEntry.Storable (e : WormEntry) : Prop where
  event_terminated : ∀ s ∈ e.eventType, 0 ∉ s
  meta_terminated : ∀ s ∈ e.metadata, 0 ∉ s
  event_small : e.eventText.length < 2 ^ 16
  size_small : wormHeaderSize +
    (e.eventText.length + e.payloadBytes.length + e.metaText.length) < 2 ^ 32

theorem WormEntry.Storable.small {e : WormEntry} (h : e.Storable) (ns : UInt64) :
    (e.frame ns).Small :=
  ⟨h.event_small, h.size_small⟩

theorem length_frames (i : Nat) : (frames clock i es).length = es.length := by
  induction es generalizing i with
  | nil => rfl
  | cons e es ih => rw [frames, List.length_cons, List.length_cons, ih]

theorem frames_small (h : ∀ e ∈ es, e.Storable) (i : Nat) : ∀ f ∈ frames clock i es, f.Small := by
  induction es generalizing i with
  | nil => simp [frames]
  | cons e es ih =>
    rw [List.forall_mem_cons] at h
    rw [frames, List.forall_mem_cons]
    exact ⟨h.1.small _, ih h.2 _⟩

theorem writeLoop_eq (h : ∀ e ∈ es, e.Storable) (i : Nat) :
    writeLoop clock i es = .ok ((frames clock i es).map Frame.toBytes).flatten := by
  induction es generalizing i with
  | nil => rfl
  | cons e es ih =>
    rw [List.forall_mem_cons] at h
    rw [writeLoop, WormEntry.serialize_eq h.1.event_small h.1.size_small, ok_bind, ih h.2, ok_bind,
      pure_eq, frames, List.map_cons, List.flatten_cons]

theorem length_le_flatten (fs : List Frame) :
    fs.length ≤ ((fs.map Frame.toBytes).flatten).length := by
  induction fs with
  | nil => simp
  | cons f fs ih =>
    rw [List.map_cons, List.flatten_cons, List.length_append, List.length_cons,
      Frame.length_toBytes, wormHeaderSize]
    omega

/-- A ledger is read back as the entries of its frames. -/
theorem readFile_writeFile (clock : Nat → UInt64) (h : ∀ e ∈ es, e.Storable) (hne : 1 ≤ es.length)
    (hcount : es.length ≤ maxEntries) : ∃ content, writeFile clock es = .ok content ∧
      readFile content = .ok ((frames clock 0 es).map Frame.toEntry) := by
  refine ⟨((frames clock 0 es).map Frame.toBytes).flatten, ?_, ?_⟩
  · rw [writeFile, if_neg (by omega), writeLoop_eq h]
  · have hfuel := length_le_flatten (frames clock 0 es)
    rw [← List.nil_append (List.map Frame.toEntry _)]
    exact readLoop_frames (frames_small h 0) (by simpa [length_frames] using hcount) (by omega)

/-- The entry that was read back has the fields that the format stores. -/
structure WormEntry.Survives (e back : WormEntry) : Prop where
  eventType : back.eventType = e.eventType
  payload : back.payload = e.payload
  metadata : back.metadata = e.metadata
  prevHash : back.prevHash = e.prevHash
  contentHash : back.contentHash = e.contentHash
  signature : back.signature = e.signature
  timestampNs : back.timestampNs = e.timestampNs

/-- No field of the entry is allocated and empty. -/
def WormEntry.NoneEmpty (e : WormEntry) : Prop :=
  e.eventType ≠ some [] ∧ e.payload ≠ some [] ∧ e.metadata ≠ some []

theorem field_getD_eq_iff {o : Option (List UInt8)} :
    Frame.field (o.getD []) = o ↔ o ≠ some [] := by
  cases o with
  | none => simp [Frame.field]
  | some s => cases s <;> simp [Frame.field]

theorem cString_getD {o : Option (List UInt8)} (h : ∀ s ∈ o, 0 ∉ s) :
    cString (o.getD []) = o.getD [] := by
  cases o with
  | none => rfl
  | some s => exact cString_eq_self.mpr (h s rfl)

/-- An entry survives exactly if the clock shows its timestamp and none of its
fields is allocated for nothing. -/
theorem survives_frame_iff {e : WormEntry} {ns : UInt64} (h : e.Storable) :
    e.Survives (e.frame ns).toEntry ↔ ns = e.timestampNs ∧ e.NoneEmpty := by
  have hevent : (e.frame ns).toEntry.eventType = Frame.field (e.eventType.getD []) :=
    congrArg Frame.field (cString_getD h.event_terminated)
  have hmeta : (e.frame ns).toEntry.metadata = Frame.field (e.metadata.getD []) :=
    congrArg Frame.field (cString_getD h.meta_terminated)
  constructor
  · intro hs
    refine ⟨hs.timestampNs, ?_, ?_, ?_⟩
    · exact field_getD_eq_iff.mp (hevent ▸ hs.eventType)
    · exact field_getD_eq_iff.mp hs.payload
    · exact field_getD_eq_iff.mp (hmeta ▸ hs.metadata)
  · intro hs
    obtain ⟨hns, he, hp, hm⟩ := hs
    exact ⟨hevent.trans (field_getD_eq_iff.mpr he), field_getD_eq_iff.mpr hp,
      hmeta.trans (field_getD_eq_iff.mpr hm), rfl, rfl, rfl, hns⟩

theorem survive_frames_iff (clock : Nat → UInt64) (h : ∀ e ∈ es, e.Storable) (i : Nat) :
    List.Forall₂ WormEntry.Survives es ((frames clock i es).map Frame.toEntry) ↔
      (∀ (j : Nat) (hj : j < es.length), clock (i + j) = es[j].timestampNs) ∧
        ∀ e ∈ es, e.NoneEmpty := by
  induction es generalizing i with
  | nil => simp [frames]
  | cons e es ih =>
    rw [List.forall_mem_cons] at h
    rw [frames, List.map_cons, List.forall₂_cons, survives_frame_iff h.1, ih h.2,
      List.forall_mem_cons]
    constructor
    · intro hs
      obtain ⟨⟨h0, hempty⟩, hj, hrest⟩ := hs
      refine ⟨?_, hempty, hrest⟩
      intro j hlt
      cases j with
      | zero => exact h0
      | succ j =>
        have hidx : i + (j + 1) = i + 1 + j := by omega
        rw [hidx]
        exact hj j (by simpa using hlt)
    · intro hs
      obtain ⟨hj, hempty, hrest⟩ := hs
      refine ⟨⟨hj 0 (by simp), hempty⟩, ?_, hrest⟩
      intro j hlt
      have hidx : i + 1 + j = i + (j + 1) := by omega
      rw [hidx]
      exact hj (j + 1) (by simpa using hlt)

/-- The chain hashes are not stored and come back as zeros. -/
theorem verify_frames_iff (clock : Nat → UInt64) (es : List WormEntry) (i : Nat) :
    verifyLoop zeroHash ((frames clock i es).map Frame.toEntry) = true ↔
      ∀ e ∈ es, e.contentHash = zeroHash := by
  induction es generalizing i with
  | nil => simp [frames, verifyLoop]
  | cons e es ih =>
    rw [frames, List.map_cons, verifyLoop, computeChainHash_zero, List.forall_mem_cons]
    change (if e.contentHash ≠ zeroHash then false
      else verifyLoop zeroHash ((frames clock (i + 1) es).map Frame.toEntry)) = true ↔ _
    by_cases h : e.contentHash = zeroHash
    · rw [if_neg (not_not.mpr h), ih, and_iff_right h]
    · simp [h]

/-- A ledger that is written to a file comes back as it was, and verifies, exactly
when the clock showed every entry's own timestamp, every content hash is zero and
no field is allocated and empty. The format has no place for the chain hashes,
and the timestamps of the entries are not the ones that are written. -/
theorem writeFile_preserves_iff (clock : Nat → UInt64) (entries : List WormEntry)
    (hne : 1 ≤ entries.length) (hcount : entries.length ≤ 1024)
    (hstorable : ∀ e ∈ entries, e.Storable) :
    (∃ content back, writeFile clock entries = .ok content ∧ readFile content = .ok back ∧
        List.Forall₂ WormEntry.Survives entries back ∧ verifyChain back = true) ↔
      (∀ (i : Nat) (hi : i < entries.length), clock i = entries[i].timestampNs) ∧
        (∀ e ∈ entries, e.contentHash = zeroHash) ∧ ∀ e ∈ entries, e.NoneEmpty := by
  obtain ⟨content, hwrite, hread⟩ := readFile_writeFile clock hstorable hne hcount
  have hsurvive := survive_frames_iff clock hstorable 0
  simp only [Nat.zero_add] at hsurvive
  have hverify := verify_frames_iff clock entries 0
  constructor
  · intro h
    obtain ⟨content', back, hw, hr, hs, hv⟩ := h
    rw [hwrite, Except.ok.injEq] at hw
    rw [← hw, hread, Except.ok.injEq] at hr
    subst hr
    obtain ⟨hclock, hempty⟩ := hsurvive.mp hs
    exact ⟨hclock, hverify.mp hv, hempty⟩
  · intro h
    obtain ⟨hclock, hzero, hempty⟩ := h
    exact ⟨content, _, hwrite, hread, hsurvive.mpr ⟨hclock, hempty⟩, hverify.mpr hzero⟩

theorem entryAfter_storable {previous : Hash} {payload : List UInt8}
    (h : payload.length < 2 ^ 31) : (entryAfter previous payload).Storable where
  event_terminated := by simp [entryAfter, WormEntry.alloc]
  meta_terminated := by simp [entryAfter, WormEntry.alloc]
  event_small := by simp [entryAfter, WormEntry.alloc, WormEntry.eventText]
  size_small := by
    simp [entryAfter, WormEntry.alloc, WormEntry.eventText, WormEntry.payloadBytes,
      WormEntry.metaText, wormHeaderSize]
    omega

theorem ledgerOfTwo_storable : ∀ e ∈ ledgerOfTwo, e.Storable := by
  rw [ledgerOfTwo, List.forall_mem_cons, List.forall_mem_singleton]
  exact ⟨entryAfter_storable (by decide), entryAfter_storable (by decide)⟩

theorem writeFile_preserves_ledgerOfTwo :
    (∃ content back, writeFile (fun _ => 0) ledgerOfTwo = .ok content ∧
        readFile content = .ok back ∧ List.Forall₂ WormEntry.Survives ledgerOfTwo back ∧
        verifyChain back = true) ↔
      (∀ (i : Nat) (hi : i < ledgerOfTwo.length), (0 : UInt64) = ledgerOfTwo[i].timestampNs) ∧
        (∀ e ∈ ledgerOfTwo, e.contentHash = zeroHash) ∧ ∀ e ∈ ledgerOfTwo, e.NoneEmpty :=
  writeFile_preserves_iff (fun _ => 0) ledgerOfTwo (by decide) (by decide) ledgerOfTwo_storable

/-- Two entries that verify do not any more when they are read back, whatever the
clock shows, and a clock that has moved on gives them other timestamps. -/
theorem readFile_breaks_ledgerOfTwo :
    verifyChain ledgerOfTwo = true ∧ (∀ e ∈ ledgerOfTwo, e.Storable) ∧
      (∀ clock, ∃ content back, writeFile clock ledgerOfTwo = .ok content ∧
        readFile content = .ok back ∧ verifyChain back = false) ∧
      ∃ content back, writeFile (fun _ => 1) ledgerOfTwo = .ok content ∧
        readFile content = .ok back ∧ ¬ List.Forall₂ WormEntry.Survives ledgerOfTwo back := by
  refine ⟨by decide +kernel, ledgerOfTwo_storable, ?_, ?_⟩
  · intro clock
    obtain ⟨content, hw, hr⟩ :=
      readFile_writeFile clock ledgerOfTwo_storable (by decide) (by decide)
    refine ⟨content, _, hw, hr, ?_⟩
    rw [Bool.eq_false_iff, ne_eq, verifyChain, verify_frames_iff]
    decide +kernel
  · obtain ⟨content, hw, hr⟩ := readFile_writeFile (fun _ => 1) ledgerOfTwo_storable
      (by decide) (by decide)
    refine ⟨content, _, hw, hr, ?_⟩
    rw [survive_frames_iff _ ledgerOfTwo_storable]
    intro h
    exact absurd (h.1 0 (by decide)) (by decide)

end HyperKitty.WormStorage
