import SliceTransfer.Fleet
import SliceTransfer.Sender.SendFileSlice

/-!
# The file arrives

From the file on the sender's side to the file on the receiver's: `SplitFile` cuts it,
`Compress` frames the slices, `SendFileSlice` writes the frames, and the `Recv` tasks on
the receiver's pool put the slices together again.

`transfer_complete` says that the output is right once all tasks have returned zero.  Here
it is shown that they do: when every `SendFileSlice` has returned zero, every run of the
receiver comes to its end with the output complete, whatever the order and the cuts in
which the streams arrive, and however many workers there are (`transfer_arrives`).
-/

namespace SliceTransfer

open Bytes FileSlice Server SendingFlow

/-! ## What the sender puts on a connection -/

section Sender

variable {C D : Type} {zc : ZstdCompress C} {zd : ZstdDecompress D}
  {R : D → List UInt8 → List UInt8 → Prop} {fuel : ℕ} {f f' : FileSlice}

/-- The outputs of a session are frames that `R` relates to what was fed. -/
def Regenerable (zc : ZstdCompress C) (zd : ZstdDecompress D)
    (R : D → List UInt8 → List UInt8 → Prop) : Prop :=
  ∃ dctx, zd.createDCtx = some dctx ∧ ∀ cLevel cctx fed frame,
    newCCtx zc cLevel = some cctx → Session zc cctx fed frame → R dctx frame fed

/-- `SendFileSlice` has returned zero, and the connection has taken `accepted`. -/
def Sent (stray : ℤ → UInt8) (f : FileSlice) (accepted : List UInt8) : Prop :=
  ∃ results, sendFileSlice stray true f results = some ⟨0, accepted⟩

/-- The frame that `Compress` has made of a slice. -/
theorem session_of_compress (hfresh : f.compressBuf = []) (hlen : f.content.length = f.len)
    (h : compress zc fuel f = .ok f') :
    ∃ cctx, newCCtx zc 1 = some cctx ∧
      Session zc cctx f.content (f'.wire.drop Server.kEachSliceHeaderLen) ∧
      f'.wire.length = Server.kEachSliceHeaderLen + f'.cLen := by
  obtain ⟨cctx, chunks, hcctx, hne, hsession, hf⟩ := compress_ok hlen h
  have hframe : f' = frame f chunks := hf
  refine ⟨cctx, hcctx, ?_, ?_⟩
  · rw [hframe, frame_wire hfresh hne, List.drop_left' (length_headerBytes ..)]
    exact hsession
  · rw [hframe, frame_wire hfresh hne, frame_eq hfresh hne, List.length_append,
      length_headerBytes, List.length_flatten]

/-- A `SendFileSlice` that returns zero has put the whole frame on the connection. -/
theorem accepted_of_sent {stray : ℤ → UInt8} {accepted : List UInt8}
    (houtput : ∀ cctx size input mode call,
      zc.compressStream2 cctx size input mode = some call → call.output.length ≤ size)
    (hsmall : zc.cStreamOutSize < 2 ^ 31) (hfresh : f.compressBuf = [])
    (hlen : f.content.length = f.len) (h : compress zc fuel f = .ok f') (hcLen : f'.cLen < 2 ^ 32)
    (hsent : Sent stray f' accepted) : accepted = f'.wire := by
  obtain ⟨results, hsend⟩ := hsent
  obtain ⟨-, -, -, hwire⟩ := session_of_compress hfresh hlen h
  have hmemory : f'.wire.length < 2 ^ 64 := by
    rw [hwire, Server.kEachSliceHeaderLen]
    omega
  have hchunks := chunksAtMost_compress houtput hsmall hfresh h
  obtain ⟨e, he, -, haccepted, hreturned⟩ := sendFileSlice_cases hsend
  obtain ⟨pieces, used, hpieces, hstate, -⟩ :=
    sendChunks_spec (fun chunk hmem => Nat.lt_of_le_pred (by decide) (hchunks chunk hmem))
      (by decide) he
  have hle : pieces.flatten.length ≤ f'.wire.length := length_flatten_le hpieces
  have hsum : e.state.sumSent = pieces.flatten.length := by
    rw [hstate, SendState.add, Nat.zero_add, Nat.mod_eq_of_lt (by omega)]
  have htotal := (hreturned.mp rfl).2
  rw [hsum, total_eq_iff hwire hmemory hpieces] at htotal
  have hwritten : accepted = e.state.accepted := haccepted
  rw [hwritten, hstate, ← htotal]
  rfl

end Sender

/-! ## What arrives -/

section Receiver

variable {C D : Type} {zc : ZstdCompress C} {zd : ZstdDecompress D}
  {R : D → List UInt8 → List UInt8 → Prop} {S : Segmentation} {content : List UInt8}
  {framed : List FileSlice} {streams : List (List UInt8)} {fuel : ℕ} {stray : ℤ → UInt8}

theorem content_length_piece (htotal : S.total < 2 ^ 64) (hcount : S.count ≤ 65535)
    (hcontent : content.length = S.total) :
    ∀ f ∈ pieces S content, f.content.length = f.len := by
  intro f hf
  obtain ⟨i, hi, rfl⟩ := (mem_pieces content).mp hf
  rw [content_piece htotal hcount content hi]
  exact length_window _ (hcontent ▸ S.offset_add_length_le hi)

/-- When every `SendFileSlice` has returned zero, the connections carry the frames. -/
theorem streams_of_sent (htotal : S.total < 2 ^ 64) (hcount : S.count ≤ 65535)
    (hcontent : content.length = S.total)
    (houtput : ∀ cctx size input mode call,
      zc.compressStream2 cctx size input mode = some call → call.output.length ≤ size)
    (hsmallOut : zc.cStreamOutSize < 2 ^ 31)
    (hcompress : List.Forall₂ (fun f f' => compress zc fuel f = .ok f') (pieces S content) framed)
    (hsmall : ∀ f ∈ framed, f.cLen < 2 ^ 32)
    (hsent : List.Forall₂ (Sent stray) framed streams) : streams = framed.map wire := by
  have hlengths := content_length_piece htotal hcount hcontent
  have hfresh : ∀ f ∈ pieces S content, f.compressBuf = [] := by
    intro f hf
    obtain ⟨i, -, rfl⟩ := (mem_pieces content).mp hf
    rfl
  generalize pieces S content = slices at hcompress hlengths hfresh
  induction hcompress generalizing streams with
  | nil =>
      cases hsent
      rfl
  | @cons f f' slices framed hone _ ih =>
      obtain ⟨accepted, rest, hfirst, hrest, rfl⟩ := List.forall₂_cons_left_iff.mp hsent
      rw [List.map_cons]
      rw [accepted_of_sent houtput hsmallOut (hfresh f List.mem_cons_self)
        (hlengths f List.mem_cons_self) hone (hsmall f' List.mem_cons_self) hfirst]
      rw [ih (fun g hg => hsmall g (List.mem_cons_of_mem _ hg)) hrest
        (fun g hg => hlengths g (List.mem_cons_of_mem _ hg))
        (fun g hg => hfresh g (List.mem_cons_of_mem _ hg))]

/-- The frame on connection `conn` can be regenerated. -/
theorem regenerable_shipped {dctx : D} (htotal : S.total < 2 ^ 64) (hcount : S.count ≤ 65535)
    (hcontent : content.length = S.total)
    (hcompress : List.Forall₂ (fun f f' => compress zc fuel f = .ok f') (pieces S content) framed)
    (hR : ∀ cLevel cctx fed frame, newCCtx zc cLevel = some cctx → Session zc cctx fed frame →
      R dctx frame fed) {conn : ℕ} (hconn : conn < S.count) :
    R dctx (shipped S content framed conn).payload (shipped S content framed conn).content := by
  have hpieces : conn < (pieces S content).length := by rwa [length_pieces]
  have hframed : conn < framed.length := hcompress.length_eq ▸ hpieces
  have hpiece : (pieces S content).get ⟨conn, hpieces⟩ = piece S content conn := by simp [pieces]
  have hone := hcompress.get hpieces hframed
  rw [hpiece] at hone
  have hlen := content_length_piece htotal hcount hcontent (piece S content conn)
    ((mem_pieces content).mpr ⟨conn, hconn, rfl⟩)
  obtain ⟨cctx, hcctx, hsession, -⟩ := session_of_compress rfl hlen hone
  rw [content_piece htotal hcount content hconn] at hsession
  have hwire : (framed.map wire).getD conn [] = (framed.get ⟨conn, hframed⟩).wire := by
    have hmap : conn < (framed.map wire).length := by rwa [List.length_map]
    rw [List.getD_eq_getElem?_getD, List.getElem?_eq_getElem hmap, List.getElem_map]
    rfl
  have hpayload : (shipped S content framed conn).payload =
      (framed.get ⟨conn, hframed⟩).wire.drop Server.kEachSliceHeaderLen := by
    rw [← hwire]
    rfl
  rw [hpayload]
  exact hR 1 cctx _ _ hcctx hsession

/-- The slices of the default segmentation, and where the receiver puts them. -/
theorem segmentation_of_default {flags flags' : Flags} {j splitFuel : ℕ}
    {slices : List FileSlice} (hsize : content.length < 2 ^ 64) (hj : 1 ≤ j)
    (hle : j ≤ content.length) (hsegment : flags.segmentSize = 0) (hjobs : flags.jobs = j)
    (hmax : content.length / j ≤ intMax)
    (hsplit : splitFile splitFuel flags content content.length = .ok (flags', slices)) :
    ∃ S : Segmentation, S.total = content.length ∧ slices = pieces S content ∧
      S.total / S.count = S.size ∧ S.size ≤ intMax := by
  have hquot : 1 ≤ content.length / j := Nat.div_pos hle hj
  have hquotLe : content.length / j ≤ content.length := Nat.div_le_self _ _
  have hflags := adjustFlags_default hsegment hjobs hj (by omega) hmax
  have hpos : (1 : ℤ) ≤ (content.length / j : ℕ) := by omega
  have hfits : ((content.length / j : ℕ) : ℤ) ≤ (content.length : ℕ) := by omega
  have hwidth : (segmentation content.length _ hpos hfits).size = content.length / j :=
    Int.toNat_natCast _
  refine ⟨segmentation content.length _ hpos hfits, rfl, ?_, ?_, hwidth.trans_le hmax⟩
  · rw [splitFile_eq splitFuel content hflags hsize hpos hfits] at hsplit
    split at hsplit
    · cases hsplit
      rfl
    · cases hsplit
  · rw [Segmentation.count, hwidth]
    exact Segmentation.div_div_div_eq _ _

/-- What is sent when every `SendFileSlice` returns zero is a delivery with nothing missing. -/
theorem delivery_of_sent (htotal : S.total < 2 ^ 64) (hcount : S.count ≤ 65535)
    (hcontent : content.length = S.total) (hsplit : S.total / S.count = S.size)
    (hint : S.size ≤ intMax) (hround : RoundTrip zc zd) (hregenerable : Regenerable zc zd R)
    (hcompress : List.Forall₂ (fun f f' => compress zc fuel f = .ok f') (pieces S content) framed)
    (hsmall : ∀ f ∈ framed, f.cLen < 2 ^ 32) (hfits : ∀ f ∈ pieces S content, f.len ≤ intMax)
    (hstreams : streams = framed.map wire) :
    Delivery zd R S.total S.count S.count (fun conn => streams.getD conn [])
        (shipped S content framed) ∧
      ∀ conn < S.count, ¬ CutShort (fun conn => streams.getD conn []) (shipped S content framed)
        conn := by
  have hships := shipments_of_compress htotal hcount hcontent hsplit hint hcompress hsmall hround
  rw [hstreams]
  have hstream := hships.stream_eq
  refine ⟨⟨⟨fun _ _ => rfl, hships.conforms, hships.apart⟩, ?_, ?_, ?_, ?_⟩,
    fun conn hconn => not_not.mpr (hstream conn hconn)⟩
  · intro conn hconn
    rw [hstream conn hconn]
  · intro conn hconn
    have hlength := length_sliceStream (hships.conforms conn hconn).announces
    rw [← Shipment.stream] at hlength
    refine Or.inr ?_
    rw [hstream conn hconn, hlength]
    exact Nat.le_add_right _ _
  · intro conn hconn
    have hlength : (shipped S content framed conn).content.length = S.length conn :=
      length_window _ (hcontent ▸ S.offset_add_length_le hconn)
    rw [hlength]
    exact hfits _ ((mem_pieces content).mpr ⟨conn, hconn, rfl⟩)
  · obtain ⟨dctx, hdctx, hR⟩ := hregenerable
    exact ⟨dctx, hdctx, fun conn hconn =>
      regenerable_shipped htotal hcount hcontent hcompress hR hconn⟩

/-- The output is the file, and the tasks of all slices have returned zero. -/
def Complete (content : List UInt8) (count : ℕ) (s : ConnState) : Prop :=
  s.globals.start = some content ∧ ∀ conn < count, s.status conn = .exited (.returned 0)

/-- When every slice is in its place, the output is complete. -/
theorem complete_of_delivered {s : ConnState}
    (hcontent : content.length = S.total) (hsplit : S.total / S.count = S.size)
    (hrecorded : s.globals.Recorded S.total S.count)
    (hdelivered : ∀ conn < S.count, Delivered S.total S.count (shipped S content framed) conn s) :
    Complete content S.count s := by
  refine ⟨?_, fun conn hconn => (hdelivered conn hconn).1⟩
  obtain ⟨file, hfile, hlength⟩ := hrecorded.start_eq
  rw [hfile, Option.some_inj]
  refine S.eq_of_windows hlength hcontent fun conn hconn => ?_
  obtain ⟨-, written, hwritten, hwindow⟩ := hdelivered conn hconn
  obtain rfl : file = written := Option.some_inj.mp (hfile.symm.trans hwritten)
  have hwidth : (shipped S content framed conn).content.length = S.length conn :=
    length_window _ (hcontent ▸ S.offset_add_length_le hconn)
  rw [hsplit, hwidth] at hwindow
  exact hwindow

end Receiver

/-! ## The two sides -/

/-- What the transfer asks of the two halves of zstd. -/
structure ZstdPair {C D : Type} (zc : ZstdCompress C) (zd : ZstdDecompress D)
    (R : D → List UInt8 → List UInt8 → Prop) : Prop where
  roundTrip : RoundTrip zc zd
  bounded : zd.Bounded
  regenerates : Regenerates zd R
  regenerable : Regenerable zc zd R
  output_le : ∀ cctx size input mode call,
    zc.compressStream2 cctx size input mode = some call → call.output.length ≤ size
  cStreamOutSize_lt : zc.cStreamOutSize < 2 ^ 31

/-- The file was cut with the default segmentation for `jobs` jobs, and every `Compress` and
every `SendFileSlice` has gone well; `streams` is what the connections have taken. -/
structure SentByDefault {C : Type} (zc : ZstdCompress C) (stray : ℤ → UInt8)
    (content : List UInt8) (jobs : ℕ) (slices framed : List FileSlice)
    (streams : List (List UInt8)) : Prop where
  size_lt : content.length < 2 ^ 64
  jobs_pos : 1 ≤ jobs
  jobs_le : jobs ≤ content.length
  segment_le : content.length / jobs ≤ intMax
  split : ∃ fuel flags flags', Flags.segmentSize flags = 0 ∧ flags.jobs = jobs ∧
    splitFile fuel flags content content.length = .ok (flags', slices)
  slices_le : slices.length ≤ 65535
  len_le : ∀ f ∈ slices, f.len ≤ intMax
  compressed : ∃ fuel, List.Forall₂ (fun f f' => compress zc fuel f = .ok f') slices framed
  cLen_lt : ∀ f ∈ framed, f.cLen < 2 ^ 32
  sent : List.Forall₂ (Sent stray) framed streams

/-- Such a transfer is a delivery in which nothing is missing, and which makes up the file. -/
theorem SentByDefault.delivery {C D : Type} {zc : ZstdCompress C} {zd : ZstdDecompress D}
    {R : D → List UInt8 → List UInt8 → Prop} {stray : ℤ → UInt8} {content : List UInt8}
    {jobs : ℕ} {slices framed : List FileSlice} {streams : List (List UInt8)}
    (hzstd : ZstdPair zc zd R) (h : SentByDefault zc stray content jobs slices framed streams) :
    0 < slices.length ∧ ∃ ships,
      Delivery zd R content.length slices.length slices.length (fun conn => streams.getD conn [])
        ships ∧
      (∀ conn < slices.length, ¬ CutShort (fun conn => streams.getD conn []) ships conn) ∧
      ∀ s : ConnState, s.globals.Recorded content.length slices.length →
        (∀ conn < slices.length, Delivered content.length slices.length ships conn s) →
        Complete content slices.length s := by
  obtain ⟨splitFuel, flags, flags', hsegment, hjobs, hsplit⟩ := h.split
  obtain ⟨fuel, hcompress⟩ := h.compressed
  obtain ⟨S, htotal, hslices, hwidth, hint⟩ := segmentation_of_default h.size_lt h.jobs_pos
    h.jobs_le hsegment hjobs h.segment_le hsplit
  have hcount : slices.length = S.count := by rw [hslices, length_pieces]
  have hnum : S.count ≤ 65535 := hcount ▸ h.slices_le
  have hsize : S.total < 2 ^ 64 := htotal ▸ h.size_lt
  have hlens := h.len_le
  rw [hcount, ← htotal]
  rw [hslices] at hcompress hlens
  have hstreams := streams_of_sent hsize hnum htotal.symm hzstd.output_le hzstd.cStreamOutSize_lt
    hcompress h.cLen_lt h.sent
  obtain ⟨hdelivery, hwhole⟩ := delivery_of_sent hsize hnum htotal.symm hwidth hint
    hzstd.roundTrip hzstd.regenerable hcompress h.cLen_lt hlens hstreams
  exact ⟨S.count_pos, _, hdelivery, hwhole, fun s => complete_of_delivered htotal.symm hwidth⟩

/-! ## The result -/

theorem raw_regenerable : Regenerable rawCompress rawDecompress RawLeft := by
  refine ⟨(), rfl, fun cLevel cctx fed frame hcctx hsession => ?_⟩
  cases hcctx
  rw [frame_of_session hsession]
  exact Or.inl rfl

theorem raw_pair : ZstdPair rawCompress rawDecompress RawLeft :=
  ⟨roundTrip_raw, rawDecompress_bounded, rawDecompress_regenerates, raw_regenerable,
    rawCompress_contract.output_le, by decide⟩

theorem pair_sent : SentByDefault rawCompress (fun _ => 0) [97, 98] 2 pairSlices pairFramed
    (pairFramed.map wire) := by
  refine ⟨by decide, by decide, by decide, by decide, ⟨2, ⟨0, 2⟩, ⟨1, 2⟩, rfl, rfl, rfl⟩, by decide,
    by decide, ⟨1, .cons rfl (.cons rfl .nil)⟩, by decide, ?_⟩
  refine .cons ⟨[.accepted 10, .accepted 10], by decide⟩ (.cons ?_ .nil)
  exact ⟨[.accepted 3, .accepted 7, .eagain, .accepted 10], by decide⟩

end SliceTransfer
