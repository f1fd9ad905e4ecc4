import SliceTransfer.Connections
import SliceTransfer.Placement
import SliceTransfer.Sender.Compress

/-!
# The whole transfer

With the default segmentation the receiver computes the slice size of the sender:
`B / (B / (B / j)) = B / j`.  So the slices that `SplitFile` returns and `Compress`
frames are `Shipments` (`shipments_of_compress`), each with the range of the file it
was read from as its destination, and when all `Recv` tasks have returned zero the
output is the file (`transfer_complete`).
-/

namespace SliceTransfer

open Bytes FileSlice Server

/-- The outputs of a session decompress to the bytes that were fed. -/
def RoundTrip {C D : Type} (zc : ZstdCompress C) (zd : ZstdDecompress D) : Prop :=
  ∀ cLevel cctx fed frame, newCCtx zc cLevel = some cctx → Session zc cctx fed frame →
    Decodes zd frame fed

section Sender

variable {C D : Type} {zc : ZstdCompress C} {zd : ZstdDecompress D} {fuel : ℕ}

/-- The stream of a slice that `Compress` has framed. -/
theorem wire_of_compress {f f' : FileSlice} (hfresh : f.compressBuf = [])
    (hlen : f.content.length = f.len) (hround : RoundTrip zc zd)
    (h : compress zc fuel f = .ok f') :
    ∃ payload, f'.wire = sliceStream ⟨f.index, f.len, payload.length⟩ payload ∧
      f'.cLen = payload.length ∧ Decodes zd payload f.content := by
  obtain ⟨cctx, chunks, hcctx, hne, hsession, hf⟩ := compress_ok hlen h
  have hframe : f' = frame f chunks := hf
  refine ⟨chunks.flatten, ?_, ?_, hround 1 cctx _ _ hcctx hsession⟩
  · rw [hframe, frame_wire hfresh hne, sliceStream, List.length_flatten]
  · rw [hframe, frame_eq hfresh hne, List.length_flatten]

variable {S : Segmentation} (htotal : S.total < 2 ^ 64) (hcount : S.count ≤ 65535)
  {buf : List UInt8} (hbuf : buf.length = S.total)

include htotal hcount in
theorem content_piece (buf : List UInt8) {i : ℕ} (hi : i < S.count) :
    (piece S buf i).content = window buf (S.offset i) (S.length i) := by
  rw [content, piece_getBuf htotal hcount buf hi]
  rfl

/-- What is sent on connection `conn`. -/
def shipped (S : Segmentation) (buf : List UInt8) (framed : List FileSlice) (conn : ℕ) : Shipment :=
  ⟨window buf (S.offset conn) (S.length conn),
    ((framed.map wire).getD conn []).drop kEachSliceHeaderLen⟩

include htotal hcount hbuf in
/-- The stream on connection `conn`, and what the receiver makes of it. -/
theorem stream_of_compress {framed : List FileSlice} {conn : ℕ} (hconn : conn < S.count)
    (hcompress : List.Forall₂ (fun f f' => compress zc fuel f = .ok f') (pieces S buf) framed)
    (hsmall : ∀ f ∈ framed, f.cLen < 2 ^ 32) (hround : RoundTrip zc zd) :
    (framed.map wire).getD conn [] = (shipped S buf framed conn).stream conn ∧
      (shipped S buf framed conn).payload.length < 2 ^ 32 ∧
      Decodes zd (shipped S buf framed conn).payload (shipped S buf framed conn).content := by
  have hpieces : conn < (pieces S buf).length := by rwa [length_pieces]
  have hframed : conn < framed.length := hcompress.length_eq ▸ hpieces
  have hpiece : (pieces S buf).get ⟨conn, hpieces⟩ = piece S buf conn := by simp [pieces]
  have hone := hcompress.get hpieces hframed
  rw [hpiece] at hone
  have hcontent := content_piece htotal hcount buf hconn
  have hlen : (piece S buf conn).content.length = (piece S buf conn).len := by
    rw [hcontent]
    exact length_window _ (hbuf ▸ S.offset_add_length_le hconn)
  obtain ⟨payload, hwire, hcLen, hdecodes⟩ := wire_of_compress rfl hlen hround hone
  have hstream : (framed.map wire).getD conn [] =
      sliceStream ⟨conn, S.length conn, payload.length⟩ payload := by
    have hmap : conn < (framed.map wire).length := by rwa [List.length_map]
    rw [piece_index hcount buf hconn] at hwire
    rw [List.getD_eq_getElem?_getD, List.getElem?_eq_getElem hmap, List.getElem_map]
    exact hwire
  have hpayload : (shipped S buf framed conn).payload = payload := by
    rw [shipped, hstream, sliceStream, List.drop_left' (length_headerBytes ..)]
  have hlength : (shipped S buf framed conn).content.length = S.length conn :=
    length_window _ (hbuf ▸ S.offset_add_length_le hconn)
  refine ⟨?_, ?_, ?_⟩
  · rw [hstream, Shipment.stream, Shipment.header, hpayload, hlength]
  · rw [hpayload, ← hcLen]
    exact hsmall _ (List.get_mem framed ⟨conn, hframed⟩)
  · rw [hpayload]
    rw [hcontent] at hdecodes
    exact hdecodes

include htotal hcount hbuf in
/-- **What the sender puts on the connections are the slices of the file.** -/
theorem shipments_of_compress {framed : List FileSlice} (hsplit : S.total / S.count = S.size)
    (hint : S.size ≤ intMax)
    (hcompress : List.Forall₂ (fun f f' => compress zc fuel f = .ok f') (pieces S buf) framed)
    (hsmall : ∀ f ∈ framed, f.cLen < 2 ^ 32) (hround : RoundTrip zc zd) :
    Shipments zd S.total S.count S.count (fun conn => (framed.map wire).getD conn [])
      (shipped S buf framed) := by
  have hlength : ∀ conn < S.count, (shipped S buf framed conn).content.length = S.length conn :=
    fun conn hconn => length_window _ (hbuf ▸ S.offset_add_length_le hconn)
  have hpos : ∀ conn, conn * (S.total / S.count) = S.offset conn := by
    intro conn
    rw [hsplit]
    rfl
  refine ⟨?_, ?_, ?_⟩
  · intro conn hconn
    exact (stream_of_compress htotal hcount hbuf hconn hcompress hsmall hround).1
  · intro conn hconn
    obtain ⟨-, hpayload, hdecodes⟩ :=
      stream_of_compress htotal hcount hbuf hconn hcompress hsmall hround
    refine ⟨⟨?_, ?_, hpayload, rfl⟩, ?_, ?_, hdecodes⟩
    · exact (Nat.lt_succ_of_lt hconn).trans_le (by omega)
    · have hlt : S.length conn < 2 * S.size := Segmentation.length_lt_two_mul conn
      have hmax : intMax = 2147483647 := rfl
      change (shipped S buf framed conn).content.length < 2 ^ 32
      rw [hlength conn hconn]
      omega
    · refine List.ne_nil_of_length_pos ?_
      rw [hlength conn hconn]
      exact Segmentation.length_pos conn
    · rw [hpos, hlength conn hconn]
      exact S.offset_add_length_le hconn
  · intro conn other hlt hother
    rw [hpos, hpos, hlength conn (hlt.trans hother)]
    exact S.offset_add_length_le_offset hlt hother

end Sender

/-! ## The result -/

/-- **With the default segmentation the output is the file, once all `Recv` tasks have
returned zero.** -/
theorem transfer_complete {C D : Type} (zc : ZstdCompress C) (zd : ZstdDecompress D)
    (content : List UInt8) (flags flags' : Flags) (j splitFuel compressFuel recvFuel : ℕ)
    (slices framed : List FileSlice) (g : Globals) (s : ConnState)
    (hround : RoundTrip zc zd) (hbounded : zd.Bounded)
    (hsize : content.length < 2 ^ 64) (hj : 1 ≤ j) (hle : j ≤ content.length)
    (hsegment : flags.segmentSize = 0) (hjobs : flags.jobs = j)
    (hmax : content.length / j ≤ intMax)
    (hsplit : splitFile splitFuel flags content content.length = .ok (flags', slices))
    (hnum : slices.length ≤ 65535)
    (hcompress : List.Forall₂ (fun f f' => compress zc compressFuel f = .ok f') slices framed)
    (hsmall : ∀ f ∈ framed, f.cLen < 2 ^ 32)
    (hrecorded : g.Recorded content.length slices.length)
    (hs : (connSystem zd recvFuel slices.length g
      fun conn => (framed.map wire).getD conn []).Reachable s)
    (hall : ∀ conn < slices.length, s.status conn = .exited (.returned 0)) :
    s.globals.start = some content := by
  have hquot : 1 ≤ content.length / j := Nat.div_pos hle hj
  have hquotLe : content.length / j ≤ content.length := Nat.div_le_self _ _
  have hflags := adjustFlags_default hsegment hjobs hj (by omega) hmax
  have hpos : (1 : ℤ) ≤ (content.length / j : ℕ) := by omega
  have hfits : ((content.length / j : ℕ) : ℤ) ≤ (content.length : ℕ) := by omega
  obtain ⟨S, hS, hslices⟩ : ∃ S : Segmentation,
      (S.total = content.length ∧ S.size = content.length / j) ∧ slices = pieces S content := by
    refine ⟨segmentation content.length _ hpos hfits, ⟨rfl, Int.toNat_natCast _⟩, ?_⟩
    rw [splitFile_eq splitFuel content hflags hsize hpos hfits] at hsplit
    split at hsplit
    · cases hsplit
      rfl
    · cases hsplit
  obtain ⟨htotal, hSsize⟩ := hS
  subst hslices
  rw [length_pieces] at hnum hrecorded hs hall
  rw [← htotal] at hsize hrecorded
  -- the receiver finds the size of the slices again
  have hsplitLen : S.total / S.count = S.size := by
    rw [Segmentation.count, hSsize, htotal]
    exact Segmentation.div_div_div_eq _ _
  have hships := shipments_of_compress hsize hnum htotal.symm hsplitLen (hSsize ▸ hmax) hcompress
    hsmall hround
  obtain ⟨file, hfile, hlen, hwindows⟩ :=
    window_of_returned hbounded hsize hships hrecorded hs hall
  rw [hfile, Option.some_inj]
  refine S.eq_of_windows hlen htotal.symm ?_
  intro conn hconn
  have hwindow := hwindows conn hconn
  rw [hsplitLen] at hwindow
  have hlength : (shipped S content framed conn).content.length = S.length conn :=
    length_window _ (htotal ▸ S.offset_add_length_le hconn)
  rw [hlength] at hwindow
  exact hwindow

/-! ## A transfer of two bytes -/

/-- The frame zstd makes of a few bytes that do not compress: magic number, frame
header with the content size, and one raw block. -/
def rawFrame (content : List UInt8) : List UInt8 :=
  [40, 181, 47, 253, 32, UInt8.ofNat content.length, UInt8.ofNat (8 * content.length + 1),
    UInt8.ofNat ((8 * content.length + 1) / 256), 0] ++ content

theorem drop_rawFrame (content : List UInt8) : (rawFrame content).drop 9 = content := rfl

/-- A zstd for contents of less than 256 bytes. -/
def rawCompress : ZstdCompress (List UInt8) where
  createCCtx := some []
  setParameter cctx _ _ := some cctx
  cStreamInSize := 131072
  cStreamOutSize := 131591
  compressStream2 cctx size input
    | .continue => some ⟨cctx ++ input, input.length, [], 0⟩
    | .end =>
        if (cctx ++ input).length < 256 ∧ (rawFrame (cctx ++ input)).length ≤ size then
          some ⟨[], input.length, rawFrame (cctx ++ input), 0⟩
        else none

def rawDecompress : ZstdDecompress Unit where
  createDCtx := some ()
  dStreamOutSize := 131072
  decompressStream _ size input :=
    if input = rawFrame (input.drop 9) ∧ (input.drop 9).length ≤ size then
      some ⟨(), input.length, input.drop 9⟩
    else none

theorem rawDecompress_bounded : rawDecompress.Bounded := by
  constructor
  · intro dctx size input call h
    simp only [rawDecompress] at h
    split at h
    · cases h
      exact le_refl _
    · cases h
  · intro dctx size input call h
    simp only [rawDecompress] at h
    split at h
    · rename_i hroom
      cases h
      exact hroom.2
    · cases h

theorem rawDecompress_decodes (content : List UInt8) :
    Decodes rawDecompress (rawFrame content) content := by
  intro dctx out _ hcalls
  cases hcalls with
  | call hne hcall hrest =>
      simp only [rawDecompress, drop_rawFrame, le_refl, and_self, if_true, Option.some_inj] at hcall
      subst hcall
      rw [List.drop_length] at hrest
      cases hrest with
      | done => exact List.append_nil _
      | call hne' hcall' hrest' => exact absurd rfl hne'

theorem frame_of_closes {cctx input frame : List UInt8} (h : Closes rawCompress cctx input frame) :
    frame = rawFrame (cctx ++ input) := by
  cases h with
  | closed hcall hzero =>
      simp only [rawCompress] at hcall
      split at hcall
      · cases hcall
        rfl
      · cases hcall
  | more hcall hmore hrest =>
      simp only [rawCompress] at hcall
      split at hcall
      · cases hcall
        exact absurd rfl hmore
      · cases hcall

theorem frame_of_session {cctx fed frame : List UInt8} (h : Session rawCompress cctx fed frame) :
    frame = rawFrame (cctx ++ fed) := by
  induction h with
  | close h => exact frame_of_closes h
  | feed hcall _ ih =>
      cases hcall
      rw [ih, List.take_length, List.append_assoc]
      rfl

theorem roundTrip_raw : RoundTrip rawCompress rawDecompress := by
  intro cLevel cctx fed frame hcctx hsession
  cases hcctx
  rw [frame_of_session hsession]
  exact rawDecompress_decodes fed

/-- The slices of the file `[97, 98]` with two jobs. -/
def pairSlices : List FileSlice := [⟨[97, 98], 0, 1, 1, 0, []⟩, ⟨[97, 98], 1, 1, 1, 0, []⟩]

/-- The same slices, framed. -/
def pairFramed : List FileSlice :=
  [frame ⟨[97, 98], 0, 1, 1, 0, []⟩ [rawFrame [97]],
    frame ⟨[97, 98], 1, 1, 1, 0, []⟩ [rawFrame [98]]]

/-- The receiver of the two slices. -/
def pairSystem : TransitionSystem ConnState WakeUp :=
  connSystem rawDecompress 2 2 (recordHeader 2 2 Globals.initial) fun conn =>
    (pairFramed.map wire).getD conn []

/-- The first stream arrives in two pieces, the other one in between. -/
def pairWakeUps : List WakeUp :=
  [⟨0, .readable [] [.data (headerBytes 0 1 10 ++ [40, 181]), .eagain]⟩,
    ⟨1, .readable [] [.data (headerBytes 1 1 10 ++ rawFrame [98]), .eagain]⟩,
    ⟨0, .readable [] [.data ((rawFrame [97]).drop 2)]⟩]

theorem pair_returned :
    (pairSystem.run pairWakeUps pairSystem.init).map (fun s => (s.status 0, s.status 1)) =
      some (.exited (.returned 0), .exited (.returned 0)) := by
  decide

/-- Two slices, three wake-ups, and the file has arrived. -/
theorem transfer_complete_pair :
    ∃ s, pairSystem.Reachable s ∧ (∀ conn < 2, s.status conn = .exited (.returned 0)) ∧
      s.globals.start = some [97, 98] := by
  obtain ⟨s, hs, hstatus⟩ := Option.map_eq_some_iff.mp pair_returned
  obtain ⟨hfirst, hsecond⟩ := Prod.mk.inj hstatus
  have hall : ∀ conn < 2, s.status conn = .exited (.returned 0) := by
    intro conn hconn
    obtain rfl | rfl : conn = 0 ∨ conn = 1 := by omega
    · exact hfirst
    · exact hsecond
  have hreachable := TransitionSystem.reachable_of_run hs
  refine ⟨s, hreachable, hall, ?_⟩
  exact transfer_complete rawCompress rawDecompress [97, 98] ⟨0, 2⟩ ⟨1, 2⟩ 2 2 1 2 pairSlices
    pairFramed (recordHeader 2 2 Globals.initial) s roundTrip_raw rawDecompress_bounded (by decide)
    (by decide) (by decide) rfl rfl (by decide) rfl (by decide) (.cons rfl (.cons rfl .nil))
    (by decide) (recorded_recordHeader 2 2 _) hreachable hall

end SliceTransfer
