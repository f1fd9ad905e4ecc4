import SliceTransfer.Sender.FileSlice
import SliceTransfer.Receiver.Reassembly

/-!
# The frame of a slice: sender against receiver

`frame f chunks` is the slice after `Compress` has linked its output chunks and set
the header.  `frame_wire` is what `SendFileSlice` then sends, `unmarshal_headerBytes`
what the receiver makes of the first ten bytes: each field modulo its width.  The
round trip therefore succeeds exactly when the length of the slice and its
compressed size fit 32 bits (`framing_roundTrip_iff`).
-/

namespace SliceTransfer

open Bytes Server FileSlice

/-- `LinkCompressChunk` for each chunk, then `SetChunkLinksHeader` with the sum of
their lengths. -/
def frame (f : FileSlice) (chunks : List (List UInt8)) : FileSlice :=
  (chunks.foldl linkCompressChunk f).setChunkLinksHeader (chunks.map List.length).sum

/-- The ten header bytes. -/
def headerBytes (index len cLen : ℕ) : List UInt8 :=
  bigEndian 2 index ++ bigEndian 4 len ++ bigEndian 4 cLen

theorem length_headerBytes (index len cLen : ℕ) :
    (headerBytes index len cLen).length = kEachSliceHeaderLen := by
  simp [headerBytes, kEachSliceHeaderLen]

/-! ## What is on the wire -/

private theorem foldl_linkCompressChunk {f : FileSlice} (hne : f.compressBuf ≠ [])
    (chunks : List (List UInt8)) :
    chunks.foldl linkCompressChunk f = { f with compressBuf := f.compressBuf ++ chunks } := by
  induction chunks generalizing f with
  | nil => simp
  | cons chunk rest ih =>
      have hlink : f.linkCompressChunk chunk =
          { f with compressBuf := f.compressBuf ++ [chunk] } := by
        simp [linkCompressChunk, hne]
      rw [List.foldl_cons, hlink, ih (by simp)]
      simp

/-- Linking and setting the header turn a fresh slice into its frame. -/
theorem frame_eq {f : FileSlice} {chunks : List (List UInt8)} (hfresh : f.compressBuf = [])
    (hne : chunks ≠ []) :
    frame f chunks = { f with
      cLen := (chunks.map List.length).sum
      compressBuf := headerBytes f.index f.len (chunks.map List.length).sum :: chunks } := by
  obtain ⟨chunk, rest, rfl⟩ := List.exists_cons_of_ne_nil hne
  have hfirst : f.linkCompressChunk chunk =
      { f with compressBuf := [headerBytes f.index f.len 0, chunk] } := by
    simp [linkCompressChunk, hfresh, headerBytes]
  have hlast : (bigEndian 4 ((chunk :: rest).map List.length).sum).length =
      (bigEndian 4 0).length := by
    rw [length_bigEndian, length_bigEndian]
  have hsix : (bigEndian 2 f.index ++ bigEndian 4 f.len).length = 6 := by simp
  have hstore := overwrite_append_right (bigEndian 2 f.index ++ bigEndian 4 f.len) hlast
  rw [hsix] at hstore
  rw [frame, List.foldl_cons, hfirst, foldl_linkCompressChunk (by simp)]
  simp only [setChunkLinksHeader, List.cons_append, List.nil_append]
  rw [headerBytes, hstore, headerBytes]

theorem frame_wire {f : FileSlice} {chunks : List (List UInt8)} (hfresh : f.compressBuf = [])
    (hne : chunks ≠ []) :
    (frame f chunks).wire =
      headerBytes f.index f.len (chunks.map List.length).sum ++ chunks.flatten := by
  rw [frame_eq hfresh hne, wire, List.flatten_cons]

/-- The receiver reads each field back modulo its width. -/
theorem unmarshal_headerBytes (index len cLen : ℕ) :
    unmarshal (headerBytes index len cLen) =
      ⟨index % 2 ^ 16, len % 2 ^ 32, cLen % 2 ^ 32⟩ := by
  have hindex : window (headerBytes index len cLen) 0 2 = bigEndian 2 index := by
    have h := window_append_middle [] (bigEndian 2 index) (bigEndian 4 len ++ bigEndian 4 cLen)
    rwa [List.nil_append, List.length_nil, length_bigEndian, ← List.append_assoc] at h
  have hlen : window (headerBytes index len cLen) 2 4 = bigEndian 4 len := by
    have h := window_append_middle (bigEndian 2 index) (bigEndian 4 len) (bigEndian 4 cLen)
    rwa [length_bigEndian, length_bigEndian] at h
  have hcLen : window (headerBytes index len cLen) 6 4 = bigEndian 4 cLen := by
    have h := window_append_middle (bigEndian 2 index ++ bigEndian 4 len) (bigEndian 4 cLen) []
    rwa [List.length_append, length_bigEndian, length_bigEndian, length_bigEndian,
      List.append_nil] at h
  have hshort : 256 ^ 2 = 2 ^ 16 := by decide
  have hword : 256 ^ 4 = 2 ^ 32 := by decide
  rw [unmarshal, hindex, hlen, hcLen, ofBigEndian_bigEndian, ofBigEndian_bigEndian,
    ofBigEndian_bigEndian, hshort, hword]

/-! ## The stream of one slice -/

/-- The stream of a slice, as `SendFileSlice` writes it. -/
def sliceStream (header : SliceHeader) (payload : List UInt8) : List UInt8 :=
  headerBytes header.index header.len header.cLen ++ payload

/-- What a conforming sender may announce. -/
structure Announces (header : SliceHeader) (payload : List UInt8) : Prop where
  index_lt : header.index < 2 ^ 16
  len_lt : header.len < 2 ^ 32
  cLen_lt : header.cLen < 2 ^ 32
  payload_length : payload.length = header.cLen

theorem length_sliceStream {header : SliceHeader} {payload : List UInt8}
    (h : Announces header payload) :
    (sliceStream header payload).length = kEachSliceHeaderLen + header.cLen := by
  rw [sliceStream, List.length_append, length_headerBytes, h.payload_length]

/-- Any initial part of the stream that holds the header tells the same. -/
theorem unmarshal_of_append_eq {header : SliceHeader} {payload : List UInt8}
    (h : Announces header payload) {bytes more : List UInt8}
    (heq : bytes ++ more = sliceStream header payload)
    (hheader : kEachSliceHeaderLen ≤ bytes.length) : unmarshal bytes = header := by
  rw [← unmarshal_append more hheader, heq, sliceStream,
    unmarshal_append _ (length_headerBytes _ _ _).ge, unmarshal_headerBytes,
    Nat.mod_eq_of_lt h.index_lt, Nat.mod_eq_of_lt h.len_lt, Nat.mod_eq_of_lt h.cLen_lt]

/-! ## The slices that `SplitFile` returns -/

/-- Every slice has a 16-bit index and no chunks yet, whatever the flags. -/
theorem fresh_of_mem_splitFile {fuel bufSize : ℕ} {flags flags' : Flags} {buf : List UInt8}
    {slices : List FileSlice} (h : splitFile fuel flags buf bufSize = .ok (flags', slices)) :
    ∀ f ∈ slices, f.index < 2 ^ 16 ∧ f.compressBuf = [] :=
  fun f hf =>
    have hpushed := pushed_of_mem_splitLoop (by decide) (splitFile_ok h).2 f hf
    ⟨hpushed.1, hpushed.2.1⟩

/-! ## The round trip -/

/-- One ten-byte header, then the chunks in order; and the receiver reads the
header as the sender's slice. -/
def FramedFaithfully (f : FileSlice) (chunks : List (List UInt8)) : Prop :=
  ∃ header, header.length = kEachSliceHeaderLen ∧
    (frame f chunks).wire = header ++ chunks.flatten ∧
    unmarshal header = ⟨(frame f chunks).index, (frame f chunks).len, (frame f chunks).cLen⟩

theorem framedFaithfully_iff {f : FileSlice} {chunks : List (List UInt8)}
    (hindex : f.index < 2 ^ 16) (hfresh : f.compressBuf = []) (hne : chunks ≠ []) :
    FramedFaithfully f chunks ↔ f.len < 2 ^ 32 ∧ (chunks.map List.length).sum < 2 ^ 32 := by
  have hwire := frame_wire hfresh hne
  have hfields : (⟨(frame f chunks).index, (frame f chunks).len, (frame f chunks).cLen⟩ :
      SliceHeader) = ⟨f.index, f.len, (chunks.map List.length).sum⟩ := by
    rw [frame_eq hfresh hne]
  unfold FramedFaithfully
  rw [hwire, hfields]
  constructor
  · rintro ⟨header, hlen, heq, hread⟩
    obtain ⟨rfl, -⟩ := List.append_inj heq ((length_headerBytes _ _ _).trans hlen.symm)
    rw [unmarshal_headerBytes, SliceHeader.mk.injEq] at hread
    obtain ⟨-, hlength, hsum⟩ := hread
    constructor
    · rw [← hlength]
      exact Nat.mod_lt _ (by decide)
    · rw [← hsum]
      exact Nat.mod_lt _ (by decide)
  · rintro ⟨hlength, hsum⟩
    refine ⟨_, length_headerBytes _ _ _, rfl, ?_⟩
    rw [unmarshal_headerBytes, Nat.mod_eq_of_lt hindex, Nat.mod_eq_of_lt hlength,
      Nat.mod_eq_of_lt hsum]

/-- **The framing of a slice is read back faithfully exactly when its length and
its compressed size are below `2 ^ 32`.** -/
theorem framing_roundTrip_iff (fuel : ℕ) (flags flags' : Flags) (buf : List UInt8) (bufSize : ℕ)
    (slices : List FileSlice) (f : FileSlice) (chunks : List (List UInt8))
    (hsplit : splitFile fuel flags buf bufSize = .ok (flags', slices)) (hmem : f ∈ slices)
    (hne : chunks ≠ []) :
    FramedFaithfully f chunks ↔ f.len < 2 ^ 32 ∧ (chunks.map List.length).sum < 2 ^ 32 := by
  obtain ⟨hindex, hfresh⟩ := fresh_of_mem_splitFile hsplit f hmem
  exact framedFaithfully_iff hindex hfresh hne

/-- A slice of five bytes in two chunks. -/
theorem framing_roundTrip_small :
    FramedFaithfully ⟨[1, 2, 3, 4, 5], 0, 5, 5, 0, []⟩ [[7, 8], [9]] :=
  (framing_roundTrip_iff 1 ⟨5, 1⟩ ⟨5, 1⟩ [1, 2, 3, 4, 5] 5 [⟨[1, 2, 3, 4, 5], 0, 5, 5, 0, []⟩]
    ⟨[1, 2, 3, 4, 5], 0, 5, 5, 0, []⟩ [[7, 8], [9]] (by decide) (by decide) (by decide)).mpr
    (by decide)

/-- `ZSTD_compressBound`. -/
def compressBound (srcSize : ℕ) : ℕ :=
  srcSize + srcSize / 2 ^ 8 + if srcSize < 2 ^ 17 then (2 ^ 17 - srcSize) / 2 ^ 11 else 0

private theorem splitFile_longest (buf : List UInt8) :
    splitFile 1 ⟨2147483647, 1⟩ buf 4294967293 =
      .ok (⟨2147483647, 1⟩, [⟨buf, 0, 4294967293, 2147483647, 0, []⟩]) := rfl

/-- A file of `2 ^ 32 - 3` bytes with the largest segment size is one slice; its
compressed size may reach `2 ^ 32`, which the header stores as zero. -/
theorem framing_roundTrip_overflow :
    ∃ f chunks, splitFile 1 ⟨2147483647, 1⟩ (List.replicate 4294967293 0) 4294967293 =
        .ok (⟨2147483647, 1⟩, [f]) ∧
      chunks ≠ [] ∧ (chunks.map List.length).sum ≤ compressBound f.len ∧
      ¬ FramedFaithfully f chunks := by
  have hsum : ([List.replicate (2 ^ 32) (0 : UInt8)].map List.length).sum = 2 ^ 32 := by
    rw [List.map_singleton, List.length_replicate, List.sum_singleton]
  refine ⟨_, [List.replicate (2 ^ 32) 0], splitFile_longest _, List.cons_ne_nil _ _, ?_, ?_⟩
  · rw [hsum]
    decide
  · rw [framedFaithfully_iff (by decide) rfl (List.cons_ne_nil _ _), hsum]
    exact fun h => absurd h.2 (lt_irrefl _)

end SliceTransfer
