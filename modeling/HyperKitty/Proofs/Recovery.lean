import HyperKitty.Lib.Panics
import HyperKitty.Proofs.Overreads

namespace HyperKitty.WormStorage

open Exec Bytes Buffer

variable {buf header rest : List UInt8} {l : Lengths} {es : List WormEntry}

/-- The bytes begin as a record with these lengths does. -/
def Opens (buf : List UInt8) (l : Lengths) : Prop := ∃ flags, l.opening flags <+: buf

/-- What the loop of `readFile` takes off the file in one pass: the frame of an entry, or
something that does not begin as a record does, of which only the lengths count. -/
inductive Segment where
  | entry (f : Frame)
  | foreign (l : Lengths) (header body : List UInt8)

namespace Segment

def toBytes : Segment → List UInt8
  | entry f => f.toBytes
  | foreign _ header body => header ++ body

def entries : Segment → List WormEntry
  | entry f => [f.toEntry]
  | foreign _ _ _ => []

def Valid : Segment → Prop
  | entry f => f.Fits ∧ f.bodyLength < 2 ^ 32 ∧ f.metadata.length + 1 < 2 ^ 32
  | foreign l header body => header.length = wormHeaderSize ∧ readLengths header = .ok l ∧
      ¬ Opens header l ∧ body.length = l.varLen

end Segment

/-- The entries of the frames among the segments. -/
def entriesOf (segs : List Segment) : List WormEntry := segs.flatMap Segment.entries

/-- There is no place for another entry, or the bytes are no whole segment. -/
def Ends (es : List WormEntry) (rest : List UInt8) : Prop :=
  maxEntries ≤ es.length ∨ rest.length < wormHeaderSize ∨
    ∃ l, readLengths (rest.take wormHeaderSize) = .ok l ∧ rest.length < wormHeaderSize + l.varLen

/-- The bytes begin as a record whose lengths add up past 4 GiB, or leave no room for the
terminator of its metadata, and have as many bytes as the wrapped sum says. -/
def Overreads (rest : List UInt8) : Prop :=
  ∃ l, Opens rest l ∧ wormHeaderSize + l.varLen ≤ rest.length ∧
    (2 ^ 32 ≤ l.exactLen ∨ 2 ^ 32 ≤ l.metaLen.toNat + 1)

section Records

theorem copyField_onlyPanics {offset len size : Nat} {terminator : List UInt8} :
    OnlyPanics (WormEntry.copyField buf offset len size terminator) := by
  unfold WormEntry.copyField
  split
  · exact onlyPanics_slice.bind fun _ => onlyPanics_store.bind fun _ => onlyPanics_ok _
  · exact onlyPanics_ok _

/-- Past the length check, nothing is turned away any more. -/
theorem deserialize_onlyPanics (hl : WormEntry.lengthCheck buf = .ok l) :
    OnlyPanics (WormEntry.deserialize buf) := by
  rw [WormEntry.deserialize, hl, ok_bind]
  exact onlyPanics_readLe.bind fun _ => onlyPanics_readArray.bind fun _ =>
    onlyPanics_readArray.bind fun _ => onlyPanics_readArray.bind fun _ =>
    copyField_onlyPanics.bind fun _ => copyField_onlyPanics.bind fun _ =>
    copyField_onlyPanics.bind fun _ => onlyPanics_ok _

theorem readLengths_isOk (h : 16 ≤ buf.length) : ∃ l, readLengths buf = .ok l := by
  obtain ⟨event, h1⟩ : ∃ v, readLe16 buf 6 = .ok v :=
    readLe_isOk (by rw [width_uint16]; omega)
  obtain ⟨data, h2⟩ : ∃ v, readLe32 buf 8 = .ok v :=
    readLe_isOk (by rw [width_uint32]; omega)
  obtain ⟨metadata, h3⟩ : ∃ v, readLe32 buf 12 = .ok v :=
    readLe_isOk (by rw [width_uint32]; omega)
  refine ⟨⟨event, data, metadata⟩, ?_⟩
  rw [readLengths, h1, ok_bind, h2, ok_bind, h3, ok_bind, pure_eq]

/-- The check itself stays inside of the buffer. -/
theorem lengthCheck_returns (buf : List UInt8) : Returns (WormEntry.lengthCheck buf) := by
  unfold WormEntry.lengthCheck
  split
  · exact returns_fail ()
  · rename_i hlen
    rw [wormHeaderSize] at hlen
    have hslice : (slice buf 0 4 : OrNull _) = .ok ((buf.drop 0).take 4) :=
      if_pos ⟨by omega, by omega⟩
    have hbyte : ∃ b, (readByte buf 4 : OrNull _) = .ok b := by
      rw [readByte, List.getElem?_eq_getElem (by omega)]
      exact ⟨_, rfl⟩
    obtain ⟨b, hbyte⟩ := hbyte
    obtain ⟨l, hl⟩ : ∃ l, readLengths buf = .ok l := readLengths_isOk (by omega)
    rw [hslice, ok_bind]
    split
    · exact returns_fail ()
    · rw [hbyte, ok_bind]
      split
      · exact returns_fail ()
      · rw [hl, ok_bind]
        split
        · exact returns_fail ()
        · exact returns_ok _

/-- The lengths do not depend on what follows the header. -/
theorem readLengths_append (h : 16 ≤ header.length) (rest : List UInt8) :
    readLengths (header ++ rest) = readLengths header := by
  obtain ⟨l, hl⟩ := readLengths_isOk h
  have h6 : (header.take 6).length = 6 := List.length_take_of_le (by omega)
  have hp := (readLengths_ok_iff (List.take_prefix 6 header) h6).mp hl
  rw [hl]
  exact (readLengths_ok_iff ((List.take_prefix 6 header).trans (List.prefix_append _ _)) h6).mpr
    (hp.trans (List.prefix_append _ _))

theorem opens_append (h : 16 ≤ header.length) (rest : List UInt8) :
    Opens (header ++ rest) l ↔ Opens header l := by
  constructor
  · rintro ⟨flags, hp⟩
    refine ⟨flags, List.prefix_of_prefix_length_le hp (List.prefix_append _ _) ?_⟩
    rw [Lengths.length_opening]
    exact h
  · rintro ⟨flags, hp⟩
    exact ⟨flags, hp.trans (List.prefix_append _ _)⟩

/-- A record as long as the wrapped sum of its lengths is the frame of an entry or foreign, or
reading it goes past its end. -/
theorem deserialize_cases (hlen : buf.length = wormHeaderSize + l.varLen)
    (hl : readLengths buf = .ok l) :
    (¬ Opens buf l ∧ WormEntry.deserialize buf = fail ()) ∨
      (Opens buf l ∧ ∃ f : Frame, (Segment.entry f).Valid ∧ f.toBytes = buf ∧
        WormEntry.deserialize buf = .ok f.toEntry) ∨
      (Opens buf l ∧ (2 ^ 32 ≤ l.exactLen ∨ 2 ^ 32 ≤ l.metaLen.toNat + 1) ∧
        WormEntry.deserialize buf = .error .panic) := by
  have hvar := l.varLen_eq
  have hexpected := l.expectedLen_eq
  by_cases ho : Opens buf l
  · right
    have hcheck : WormEntry.lengthCheck buf = .ok l :=
      WormEntry.lengthCheck_ok_iff.mpr ⟨ho, by omega, by rw [wormHeaderSize] at *; omega⟩
    rcases deserialize_onlyPanics hcheck with ⟨e, he⟩ | hpanic
    · left
      obtain ⟨hroom, hmeta⟩ := (deserialize_isOk_iff hcheck).mp ⟨e, he⟩
      obtain ⟨f, hf, hm, hp, rfl⟩ := WormEntry.frame_of_deserialize he
      have hlf : f.lengths = l := by
        have h1 := readLengths_of_opening
          (f.opening_prefix_header.trans (f.header_prefix_toBytes.trans hp))
        rw [hl, Except.ok.injEq] at h1
        exact h1.symm
      have hbody : f.bodyLength = l.exactLen := by rw [← hf.exactLen, hlf]
      refine ⟨ho, f, ⟨hf, by omega, hm⟩, hp.eq_of_length ?_, he⟩
      rw [Frame.length_toBytes]
      omega
    · right
      refine ⟨ho, ?_, hpanic⟩
      by_contra hsmall
      push Not at hsmall
      obtain ⟨e, he⟩ := (deserialize_isOk_iff hcheck).mpr ⟨by omega, hsmall.2⟩
      rw [hpanic] at he
      cases he
  · left
    refine ⟨ho, ?_⟩
    rcases lengthCheck_returns buf with ⟨l', hcheck⟩ | ⟨e, hcheck⟩
    · obtain ⟨⟨flags, hp⟩, -⟩ := WormEntry.lengthCheck_ok_iff.mp hcheck
      have h1 := readLengths_of_opening hp
      rw [hl, Except.ok.injEq] at h1
      exact absurd ⟨flags, h1 ▸ hp⟩ ho
    · rw [WormEntry.deserialize, hcheck, fail_bind]

end Records

section Passes

theorem readPass_of_ends (h : Ends es rest) : readPass ⟨es, rest⟩ = .ok (.done es) := by
  rw [readPass]
  dsimp only
  split
  · rename_i hgo
    rw [List.length_take] at hgo
    rcases h with h | h | ⟨l, hl, hshort⟩
    · omega
    · omega
    · rw [hl, ok_bind, if_pos]
      · rfl
      · rw [List.length_take, List.length_drop]
        omega
  · rfl

/-- A pass over bytes that are there. -/
theorem readPass_of_lengths (hcount : es.length < maxEntries)
    (hheader : header.length = wormHeaderSize) (hl : readLengths header = .ok l)
    {body : List UInt8} (hbody : body.length = l.varLen) :
    readPass ⟨es, header ++ (body ++ rest)⟩ =
      match WormEntry.deserialize (header ++ body) with
      | .ok e => .ok (.next ⟨es ++ [e], rest⟩)
      | .error (.error ()) => .ok (.next ⟨es, rest⟩)
      | .error fault => .error fault := by
  rw [readPass]
  dsimp only
  rw [List.take_left' hheader, List.drop_left' hheader, if_pos ⟨hcount, hheader⟩, hl, ok_bind,
    List.take_left' hbody, List.drop_left' hbody, if_neg (not_not.mpr hbody)]
  rfl

theorem readPass_of_segment {seg : Segment} (hcount : es.length < maxEntries) (hv : seg.Valid) :
    readPass ⟨es, seg.toBytes ++ rest⟩ = .ok (.next ⟨es ++ seg.entries, rest⟩) := by
  cases seg with
  | entry f =>
    obtain ⟨hf, hsmall, hmeta⟩ := hv
    let body := f.event ++ f.data ++ f.metadata
    have hbytes : f.toBytes = f.header ++ body := by simp [Frame.toBytes, body]
    have hbody : body.length = f.lengths.varLen := by
      rw [Lengths.varLen_eq, hf.exactLen, Nat.mod_eq_of_lt hsmall]
      simp [body, Frame.bodyLength, Nat.add_assoc]
    have hlengths := readLengths_of_opening f.opening_prefix_header
    rw [Segment.toBytes, hbytes, List.append_assoc,
      readPass_of_lengths hcount f.length_header hlengths hbody, ← hbytes,
      WormEntry.deserialize_of_prefix hf hmeta List.prefix_rfl]
    rfl
  | foreign l header body =>
    obtain ⟨hheader, hl, ho, hbody⟩ := hv
    have h16 : 16 ≤ header.length := by
      rw [hheader]
      decide
    have hbuf : (header ++ body).length = wormHeaderSize + l.varLen := by
      rw [List.length_append, hheader, hbody]
    rw [Segment.toBytes, List.append_assoc, readPass_of_lengths hcount hheader hl hbody]
    rcases deserialize_cases hbuf ((readLengths_append h16 body).trans hl) with
      ⟨-, hfail⟩ | ⟨hopen, -⟩ | ⟨hopen, -⟩
    · rw [hfail, Segment.entries, List.append_nil]
      rfl
    · exact absurd ((opens_append h16 body).mp hopen) ho
    · exact absurd ((opens_append h16 body).mp hopen) ho

/-- The header, the bytes that its lengths announce, and the rest of the file. -/
theorem split_record (n : Nat) (rest : List UInt8) :
    rest = rest.take wormHeaderSize ++
      ((rest.drop wormHeaderSize).take n ++ (rest.drop wormHeaderSize).drop n) := by
  rw [List.take_append_drop, List.take_append_drop]

theorem readPass_of_overreads (hcount : es.length < maxEntries) (h : Overreads rest) :
    readPass ⟨es, rest⟩ = .error .panic := by
  obtain ⟨l, ho, hlen, hlarge⟩ := h
  have hheader : (rest.take wormHeaderSize).length = wormHeaderSize :=
    List.length_take_of_le (by omega)
  have hbody : ((rest.drop wormHeaderSize).take l.varLen).length = l.varLen := by
    rw [List.length_take, List.length_drop]
    omega
  have h16 : 16 ≤ (rest.take wormHeaderSize).length := by
    rw [hheader]
    decide
  have hopen : Opens (rest.take wormHeaderSize) l := by
    rw [← List.take_append_drop wormHeaderSize rest] at ho
    exact (opens_append h16 _).mp ho
  have hl : readLengths (rest.take wormHeaderSize) = .ok l :=
    readLengths_of_opening hopen.choose_spec
  have hbuf : (rest.take wormHeaderSize ++ (rest.drop wormHeaderSize).take l.varLen).length =
      wormHeaderSize + l.varLen := by
    rw [List.length_append, hheader, hbody]
  have hvar := l.varLen_eq
  rw [split_record l.varLen rest, readPass_of_lengths hcount hheader hl hbody]
  rcases deserialize_cases hbuf ((readLengths_append h16 _).trans hl) with
    ⟨hno, -⟩ | ⟨-, f, ⟨hf, hsmall, hmeta⟩, hbytes, -⟩ | ⟨-, -, hpanic⟩
  · exact absurd ((opens_append h16 _).mpr hopen) hno
  · have hlf : f.lengths = l := by
      have h1 := readLengths_of_opening (f.opening_prefix_header.trans f.header_prefix_toBytes)
      rw [hbytes, readLengths_append h16, hl, Except.ok.injEq] at h1
      exact h1.symm
    have hexact := hf.exactLen
    have hfield := hf.lengths_toNat.2.2
    rw [hlf] at hexact hfield
    omega
  · rw [hpanic]

/-- There is nothing that a pass cannot come to. -/
theorem segment_cases (es : List WormEntry) (rest : List UInt8) : Ends es rest ∨
    es.length < maxEntries ∧ ((∃ seg rest', Segment.Valid seg ∧ rest = seg.toBytes ++ rest') ∨
      Overreads rest) := by
  by_cases hcount : es.length < maxEntries
  · by_cases hheader : rest.length < wormHeaderSize
    · exact .inl (.inr (.inl hheader))
    · have htake : (rest.take wormHeaderSize).length = wormHeaderSize :=
        List.length_take_of_le (by omega)
      have h16 : 16 ≤ (rest.take wormHeaderSize).length := by
        rw [htake]
        decide
      obtain ⟨l, hl⟩ := readLengths_isOk h16
      by_cases hshort : rest.length < wormHeaderSize + l.varLen
      · exact .inl (.inr (.inr ⟨l, hl, hshort⟩))
      · right
        refine ⟨hcount, ?_⟩
        have hbody : ((rest.drop wormHeaderSize).take l.varLen).length = l.varLen := by
          rw [List.length_take, List.length_drop]
          omega
        have hbuf : (rest.take wormHeaderSize ++ (rest.drop wormHeaderSize).take l.varLen).length =
            wormHeaderSize + l.varLen := by
          rw [List.length_append, htake, hbody]
        have hsplit := split_record l.varLen rest
        rw [← List.append_assoc] at hsplit
        rcases deserialize_cases hbuf ((readLengths_append h16 _).trans hl) with
          ⟨hno, -⟩ | ⟨-, f, hv, hbytes, -⟩ | ⟨hopen, hlarge, -⟩
        · rw [opens_append h16] at hno
          exact .inl ⟨.foreign l _ _, _, ⟨htake, hl, hno, hbody⟩, hsplit⟩
        · rw [← hbytes] at hsplit
          exact .inl ⟨.entry f, _, hv, hsplit⟩
        · refine .inr ⟨l, ?_, by omega, hlarge⟩
          rw [hsplit, opens_append (by rw [hbuf, wormHeaderSize]; omega)]
          exact hopen
  · exact .inl (.inl (by omega))

end Passes

section Files

/-- The file consists of segments that are taken off it one by one, as long as there is a place
for another entry, and of what is left then. -/
structure Splits (es : List WormEntry) (content : List UInt8) (segs : List Segment)
    (tail : List UInt8) : Prop where
  bytes : content = segs.flatMap Segment.toBytes ++ tail
  valid : ∀ seg ∈ segs, seg.Valid
  room : ∀ k < segs.length, es.length + (entriesOf (segs.take k)).length < maxEntries

variable {content tail : List UInt8} {segs : List Segment} {seg : Segment}

theorem entriesOf_cons (seg : Segment) (segs : List Segment) :
    entriesOf (seg :: segs) = seg.entries ++ entriesOf segs := List.flatMap_cons

theorem Splits.nil (es : List WormEntry) (content : List UInt8) : Splits es content [] content :=
  ⟨rfl, List.forall_mem_nil _, nofun⟩

theorem Splits.cons (hcount : es.length < maxEntries) (hv : seg.Valid)
    (h : Splits (es ++ seg.entries) content segs tail) :
    Splits es (seg.toBytes ++ content) (seg :: segs) tail where
  bytes := by rw [h.bytes, List.flatMap_cons, List.append_assoc]
  valid := List.forall_mem_cons.mpr ⟨hv, h.valid⟩
  room := by
    intro k hk
    cases k with
    | zero => exact hcount
    | succ k =>
      have hroom := h.room k (by simpa using hk)
      rw [List.take_succ_cons, entriesOf_cons, List.length_append]
      rw [List.length_append] at hroom
      omega

theorem Splits.of_cons (h : Splits es content (seg :: segs) tail) :
    es.length < maxEntries ∧ seg.Valid ∧ ∃ rest, content = seg.toBytes ++ rest ∧
      Splits (es ++ seg.entries) rest segs tail := by
  obtain ⟨hv, hvalid⟩ := List.forall_mem_cons.mp h.valid
  refine ⟨by simpa [entriesOf] using h.room 0 (by simp), hv,
    segs.flatMap Segment.toBytes ++ tail, ?_, rfl, hvalid, ?_⟩
  · rw [h.bytes, List.flatMap_cons, List.append_assoc]
  · intro k hk
    have hroom := h.room (k + 1) (by simpa using hk)
    rw [List.take_succ_cons, entriesOf_cons, List.length_append] at hroom
    rw [List.length_append]
    omega

theorem Segment.Valid.length_pos (h : seg.Valid) : 0 < seg.toBytes.length := by
  cases seg with
  | entry f =>
    rw [toBytes, Frame.length_toBytes, wormHeaderSize]
    omega
  | foreign l header body =>
    rw [toBytes, List.length_append, h.1, wormHeaderSize]
    omega

/-- Every file can be split as far as the loop goes. -/
theorem exists_splits (es : List WormEntry) (content : List UInt8) : ∃ segs tail,
    Splits es content segs tail ∧ (Ends (es ++ entriesOf segs) tail ∨
      (es ++ entriesOf segs).length < maxEntries ∧ Overreads tail) := by
  induction hn : content.length using Nat.strong_induction_on generalizing es content with
  | _ n ih =>
    subst hn
    rcases segment_cases es content with hends | ⟨hcount, ⟨seg, rest, hv, rfl⟩ | hover⟩
    · exact ⟨[], content, .nil es content, .inl (by simpa [entriesOf] using hends)⟩
    · have hlt : rest.length < (seg.toBytes ++ rest).length := by
        have hpos := hv.length_pos
        rw [List.length_append]
        omega
      obtain ⟨segs, tail, hs, hend⟩ := ih rest.length hlt (es ++ seg.entries) rest rfl
      refine ⟨seg :: segs, tail, hs.cons hcount hv, ?_⟩
      rw [entriesOf_cons, ← List.append_assoc]
      exact hend
    · exact ⟨[], content, .nil es content, .inr (by simpa [entriesOf] using ⟨hcount, hover⟩)⟩

/-- The loop takes the segments off the file. -/
theorem Splits.loop (h : Splits es content segs tail) {n : Nat} (hn : content.length < n) :
    ∃ m, loop n readPass ⟨es, content⟩ = loop (m + 1) readPass ⟨es ++ entriesOf segs, tail⟩ := by
  induction segs generalizing es content n with
  | nil =>
    obtain ⟨m, rfl⟩ := Nat.exists_eq_succ_of_ne_zero (Nat.ne_of_gt (Nat.zero_lt_of_lt hn))
    have hbytes : content = tail := h.bytes
    exact ⟨m, by simp [hbytes, entriesOf]⟩
  | cons seg segs ih =>
    obtain ⟨hcount, hv, rest, rfl, hs⟩ := h.of_cons
    obtain ⟨n, rfl⟩ := Nat.exists_eq_succ_of_ne_zero (Nat.ne_of_gt (Nat.zero_lt_of_lt hn))
    have hpos := hv.length_pos
    rw [List.length_append] at hn
    obtain ⟨m, hm⟩ := ih hs (show rest.length < n by omega)
    refine ⟨m, ?_⟩
    rw [loop_next (readPass_of_segment hcount hv), hm, entriesOf_cons, List.append_assoc]

theorem readFile_of_ends (h : Splits [] content segs tail) (hends : Ends (entriesOf segs) tail) :
    readFile content = .ok (entriesOf segs) := by
  obtain ⟨m, hm⟩ := h.loop (Nat.lt_succ_self content.length)
  exact hm.trans (loop_done (readPass_of_ends hends))

theorem readFile_of_overreads (h : Splits [] content segs tail)
    (hcount : (entriesOf segs).length < maxEntries) (hover : Overreads tail) :
    readFile content = .error .panic := by
  obtain ⟨m, hm⟩ := h.loop (Nat.lt_succ_self content.length)
  exact hm.trans (loop_error (readPass_of_overreads hcount hover))

theorem Splits.length_le (h : Splits [] content segs tail) :
    (entriesOf segs).length ≤ maxEntries := by
  rcases List.eq_nil_or_concat' segs with rfl | ⟨front, seg, rfl⟩
  · exact Nat.zero_le _
  · have hroom := h.room front.length (by simp)
    have hseg : seg.entries.length ≤ 1 := by cases seg <;> simp [Segment.entries]
    rw [List.take_left' rfl] at hroom
    rw [entriesOf, List.flatMap_append, List.length_append, List.flatMap_singleton]
    rw [List.length_nil, Nat.zero_add, entriesOf] at hroom
    omega

theorem chainHash_of_mem {e : WormEntry} (h : e ∈ entriesOf segs) : e.chainHash = zeroHash := by
  obtain ⟨seg, -, he⟩ := List.mem_flatMap.mp h
  cases seg with
  | entry f =>
    rw [List.mem_singleton.mp he]
    rfl
  | foreign l header body => cases he

/-- Entries without chain hashes verify exactly if their contents have no hashes either. -/
theorem verifyLoop_of_zero (h : ∀ e ∈ es, e.chainHash = zeroHash) :
    verifyLoop zeroHash es = true ↔ ∀ e ∈ es, e.contentHash = zeroHash := by
  induction es with
  | nil => simp [verifyLoop]
  | cons e es ih =>
    rw [List.forall_mem_cons] at h
    rw [verifyLoop, computeChainHash_zero, h.1, List.forall_mem_cons]
    by_cases hc : e.contentHash = zeroHash
    · rw [if_neg (not_not.mpr hc), ih h.2, and_iff_right hc]
    · simp [hc]

theorem splits_of_ok {out : List WormEntry} (h : readFile content = .ok out) : ∃ segs tail,
    Splits [] content segs tail ∧ Ends (entriesOf segs) tail ∧ out = entriesOf segs := by
  obtain ⟨segs, tail, hs, hends | ⟨hcount, hover⟩⟩ := exists_splits [] content
  · rw [readFile_of_ends hs hends, Except.ok.injEq] at h
    exact ⟨segs, tail, hs, hends, h.symm⟩
  · rw [readFile_of_overreads hs hcount hover] at h
    cases h

theorem splits_of_error {f : Fault Unit} (h : readFile content = .error f) :
    f = .panic ∧ ∃ segs tail, Splits [] content segs tail ∧
      (entriesOf segs).length < maxEntries ∧ Overreads tail := by
  obtain ⟨segs, tail, hs, hends | ⟨hcount, hover⟩⟩ := exists_splits [] content
  · rw [readFile_of_ends hs hends] at h
    cases h
  · rw [readFile_of_overreads hs hcount hover, Except.error.injEq] at h
    exact ⟨h.symm, segs, tail, hs, hcount, hover⟩

/-- A file of any bytes is read as the entries of the frames that it can be split into, and
reading it goes wrong only where such a split comes to lengths that wrap. -/
theorem readFile_recovers (content : List UInt8) :
    (∀ out, readFile content = .ok out ↔ ∃ segs tail, Splits [] content segs tail ∧
      Ends (entriesOf segs) tail ∧ out = entriesOf segs) ∧
    (∀ f, readFile content = .error f ↔ f = .panic ∧ ∃ segs tail, Splits [] content segs tail ∧
      (entriesOf segs).length < maxEntries ∧ Overreads tail) ∧
    ∀ out, readFile content = .ok out → out.length ≤ maxEntries ∧
      (verifyChain out = true ↔ ∀ e ∈ out, e.contentHash = zeroHash) := by
  refine ⟨fun out => ⟨splits_of_ok, ?_⟩, fun f => ⟨splits_of_error, ?_⟩, fun out h => ?_⟩
  · rintro ⟨segs, tail, hs, hends, rfl⟩
    exact readFile_of_ends hs hends
  · rintro ⟨rfl, segs, tail, hs, hcount, hover⟩
    exact readFile_of_overreads hs hcount hover
  · obtain ⟨segs, tail, hs, -, rfl⟩ := splits_of_ok h
    exact ⟨hs.length_le, verifyLoop_of_zero fun e he => chainHash_of_mem he⟩

end Files

end HyperKitty.WormStorage
