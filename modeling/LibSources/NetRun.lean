import LibSources.NetCompressed

/-!
# Runs of the Compressed Connection

The sending side writes payloads and flushes, which groups the frames into blocks; the
receiving side calls `my_net_read` once for each payload.

## Main results

* `receiveAll_sendAll_compressed`: what is sent is received.
-/

namespace LibSources

open List Option

variable {net : Net} {sent content : List UInt8} {nr compressNr : UInt32}

/-! ### Streams and blocks -/

/-- The number of bytes of the frames of several payloads. -/
def framedTotal (sent : List (List UInt8)) : ℕ := (sent.map framedLength).sum

theorem framedTotal_concat (sent : List (List UInt8)) (payload : List UInt8) :
    framedTotal (sent ++ [payload]) = framedTotal sent + framedLength payload := by
  rw [framedTotal, map_append, sum_append, map_singleton, sum_singleton]
  rfl

/-- The stream consists of the frames of the payloads. The packet numbers in the headers are
not fixed, as a flush sets them anew. -/
inductive Framed : List (List UInt8) → List UInt8 → Prop where
  | nil : Framed [] []
  | cons {sent : List (List UInt8)} {stream : List UInt8} (nr : UInt32) (payload : List UInt8)
      (h : Framed sent stream) : Framed (payload :: sent) (frames nr payload ++ stream)

/-- What the sending side wrote: blocks of the stream of frames. -/
structure Written (codec : Codec) (nr : UInt32) (sent : List (List UInt8)) (bytes : List UInt8)
    (blocks : List (List UInt8)) : Prop where
  bytes_eq : bytes = blocksBytes codec true nr blocks
  block_le : ∀ b ∈ blocks, b.length ≤ maxPacketLength
  framed : Framed sent blocks.flatten

/-- A block is read while a packet is put together when it starts behind the packets before
and before the end of the packet. It then stands in the buffer behind the part of the
packet that earlier blocks brought, and the buffer is smaller than `size`. -/
def Fits (size : ℕ) (blocks sent : List (List UInt8)) : Prop :=
  ∀ b₁ b b₂ q₁ p q₂, blocks = b₁ ++ b :: b₂ → sent = q₁ ++ p :: q₂ →
    framedTotal q₁ ≤ b₁.flatten.length → b₁.flatten.length < framedTotal (q₁ ++ [p]) →
    b₁.flatten.length - framedTotal q₁ + b.length < size

def EmptyFrameEndsBlock (blocks sent : List (List UInt8)) : Prop :=
  ∀ b₁ b b₂ q₁ p q₂, blocks = b₁ ++ b :: b₂ → sent = q₁ ++ p :: q₂ → EndsEmpty p →
    b₁.flatten.length < framedTotal (q₁ ++ [p]) →
    b₁.flatten.length + b.length ≤ framedTotal (q₁ ++ [p])

variable {codec : Codec} {stream payload : List UInt8} {blocks : List (List UInt8)} {fuel : ℕ}

/-- Every sequence of writes and flushes succeeds and writes the frames of the payloads. -/
theorem Sender.sendAll_compressed {start net : Net} (S : Sender codec start net blocks stream)
    (ops : List NetOp) :
    ∃ net' nrs blocks' stream', LibSources.sendAll codec net ops = some (net', nrs) ∧
      Framed (payloads ops) stream' ∧ Sender codec start net' blocks' (stream ++ stream') := by
  induction ops generalizing net blocks stream with
  | nil => exact ⟨net, [], blocks, [], rfl, .nil, by rw [append_nil]; exact S⟩
  | cons op ops ih =>
    cases op with
    | write payload =>
      obtain ⟨net1, blocks1, hwrite, hnr, S1⟩ := S.myNetWrite payload
      obtain ⟨net', nrs, blocks', stream', hrest, hframed, S'⟩ := ih S1
      rw [append_assoc] at S'
      refine ⟨net', net1.pktNr :: nrs, blocks', _, ?_, hframed.cons net.pktNr payload, S'⟩
      rw [LibSources.sendAll, hwrite, bind_eq_bind, bind_some, hrest]
      rfl
    | flush =>
      obtain ⟨net1, blocks1, hflush, -, -, S1⟩ := S.netFlush
      obtain ⟨net', nrs, blocks', stream', hrest, hframed, S'⟩ := ih S1
      refine ⟨net', nrs, blocks', stream', ?_, hframed, S'⟩
      rw [LibSources.sendAll, hflush, bind_eq_bind, bind_some, hrest]

/-- A run of `my_net_read` from the state after the payloads `before`, for which the blocks
`consumed` were read. -/
theorem Holding.receiveAll (hcodec : codec.Inverts) {rest : List UInt8}
    {allBlocks consumed allSent before sent : List (List UInt8)} (H : Holding codec net rest blocks)
    (hblocks : ∀ b ∈ blocks, b.length ≤ maxPacketLength) (hall : allBlocks = consumed ++ blocks)
    (hsent : allSent = before ++ sent) (hframed : Framed sent (rest ++ blocks.flatten))
    (hlen : consumed.flatten.length = framedTotal before + rest.length)
    (hlast : consumed = [] ∨ ∃ c b, consumed = c ++ [b] ∧ c.flatten.length < framedTotal before)
    (hfits : Fits net.maxPacketSize allBlocks allSent)
    (hempty : EmptyFrameEndsBlock allBlocks allSent)
    (hfuel : ∀ p ∈ sent, p.length + allBlocks.length < fuel) :
    ∃ received net', LibSources.receiveAll codec fuel sent.length net = some (received, net') ∧
      received.map (fun r => (r.length, r.bytes)) = sent.map fun p => (p.length, p) := by
  induction sent generalizing net rest consumed blocks before with
  | nil => exact ⟨[], net, rfl, rfl⟩
  | cons payload sent ih =>
    generalize hstream : rest ++ blocks.flatten = stream at hframed
    obtain ⟨_, _⟩ | ⟨nr, _, hframed'⟩ := hframed
    rename_i stream
    have hfuel1 : payload.length + blocks.length < fuel := by
      have := hfuel payload mem_cons_self
      rw [hall, length_append] at this
      omega
    obtain ⟨net1, used, blocks', rest', hread, hbytes, hused, hrest', hlast', hmax, H'⟩ :=
      H.myNetRead hcodec hblocks hstream (by
          intro b1 b b2 heq hlt
          have := hfits (consumed ++ b1) b b2 before payload sent
            (by rw [hall, heq, append_assoc]) hsent
            (by rw [flatten_append, length_append]; omega)
            (by
              rw [framedTotal_concat, flatten_append, length_append]
              omega)
          rw [flatten_append, length_append] at this
          omega)
        hfuel1
    -- the bytes read so far end where the kept data ends
    have hlen' : (consumed ++ used).flatten.length =
        framedTotal (before ++ [payload]) + rest'.length := by
      have h := congrArg length hstream
      rw [hused, ← hrest', flatten_append, length_append, length_append,
        length_append, length_frames, length_append] at h
      rw [framedTotal_concat, flatten_append, length_append]
      omega
    have hpos : 0 < framedLength payload :=
      Nat.add_pos_right _ (mul_pos (by decide) (Nat.succ_pos _))
    have hlast'' : ∃ c b, consumed ++ used = c ++ [b] ∧
        c.flatten.length < framedTotal (before ++ [payload]) := by
      rw [framedTotal_concat]
      rcases hlast' with rfl | ⟨c, b, rfl, hlt⟩
      · rcases hlast with rfl | ⟨c, b, rfl, hlt⟩
        · rw [framedTotal_concat, append_nil, flatten_nil, length_nil] at hlen'
          omega
        · exact ⟨c, b, append_nil _, by omega⟩
      · refine ⟨consumed ++ c, b, (append_assoc _ _ _).symm, ?_⟩
        rw [flatten_append, length_append]
        omega
    have hkept : (if EndsEmpty payload then rest'.set 0 0 else rest') = rest' := by
      split
      · rename_i hends
        obtain ⟨c, b, hcb, hlt⟩ := hlast''
        have hle := hempty c b blocks' before payload sent
          (by rw [hall, hused, ← append_assoc, hcb, append_assoc]; rfl) hsent hends hlt
        rw [hcb, flatten_append, length_append, flatten_singleton] at hlen'
        obtain rfl : rest' = [] := length_eq_zero_iff.mp (by omega)
        rfl
      · rfl
    rw [hkept] at H'
    rw [← hmax] at hfits
    obtain ⟨received, net', hrun, hmap⟩ := ih H'
      (fun b hb => hblocks b (by rw [hused]; exact mem_append_right _ hb))
      (by rw [hall, hused, append_assoc]) (by rw [hsent, append_assoc]; rfl)
      (by rw [hrest']; exact hframed') hlen' (.inr hlast'') hfits
      (fun p hp => hfuel p (mem_cons_of_mem _ hp))
    refine ⟨⟨payload.length, payload, net1.pktNr⟩ :: received, net', ?_, ?_⟩
    · rw [length_cons, LibSources.receiveAll, hread, bind_eq_bind, bind_some]
      dsimp only
      rw [hrun, hbytes]
      rfl
    · rw [map_cons, map_cons, hmap]

/-- The round trip of compressed packets. Whatever payloads are written and wherever the
write buffer is flushed on the way, the sending side writes blocks of the frames of these
payloads. When every block fits into the buffer behind the data that is still there, and no
packet that ends in an empty frame is followed by other data in its block, each call of
`my_net_read` returns the next payload with its length. -/
theorem receiveAll_sendAll_compressed (codec : Codec) (hcodec : codec.Inverts)
    (sender receiver : Net) (ops : List NetOp) (hscomp : sender.compress = true)
    (hrcomp : receiver.compress = true) (herror : sender.error ≠ 2)
    (hsent : sender.vio.sent = []) (hwrite : sender.writePos = 0)
    (hremain : receiver.remainInBuf = 0) (hnr : receiver.pktNr = sender.compressPktNr) :
    ∃ sender' nrs, sendAll codec sender (ops ++ [NetOp.flush]) = some (sender', nrs) ∧
      (∃ blocks, Written codec receiver.pktNr (payloads ops) sender'.vio.sent blocks) ∧
      ∀ blocks, Written codec receiver.pktNr (payloads ops) sender'.vio.sent blocks →
        Fits receiver.maxPacketSize blocks (payloads ops) →
        EmptyFrameEndsBlock blocks (payloads ops) →
        ∀ fuel, (∀ p ∈ payloads ops, p.length + blocks.length < fuel) →
          ∃ received receiver', receiveAll codec fuel (payloads ops).length
              { receiver with vio := { receiver.vio with input := sender'.vio.sent } } =
            some (received, receiver') ∧
          received.map (fun r => (r.length, r.bytes)) =
            (payloads ops).map fun p => (p.length, p) := by
  obtain ⟨net₁, nrs, blocks₁, stream, hsend, hframed, S₁⟩ :=
    (Sender.init codec herror hsent hwrite).sendAll_compressed ops
  obtain ⟨net₂, blocks₂, hflush, hpos, -, S₂⟩ := S₁.netFlush
  refine ⟨net₂, nrs, sendAll_flush hsend hflush, ⟨blocks₂, ?_, ?_, ?_⟩, ?_⟩
  · rw [S₂.sent_eq, hscomp, hnr]
  · exact fun b hb => (S₂.block_le hscomp b hb).2
  · have heq := S₂.stream_eq
    rw [hpos, window_zero, append_nil, nil_append] at heq
    rw [heq]
    exact hframed
  intro blocks W hfits hempty fuel hfuel
  have H : Holding codec
      { receiver with vio := { receiver.vio with input := net₂.vio.sent } } [] blocks :=
    ⟨hrcomp, W.bytes_eq, hremain, Nat.zero_le _, rfl⟩
  exact H.receiveAll hcodec W.block_le (nil_append _).symm (nil_append _).symm
    W.framed rfl (.inl rfl) hfits hempty hfuel

/-! ### Runs with and without room in the buffer -/

theorem Framed.length_eq {sent : List (List UInt8)} (F : Framed sent stream) :
    stream.length = framedTotal sent := by
  induction F with
  | nil => rfl
  | cons nr payload _ ih =>
    rw [length_append, length_frames, ih, framedTotal, framedTotal, map_cons, sum_cons]

theorem Fits.of_lt {size : ℕ} (sent : List (List UInt8)) (h : blocks.flatten.length < size) :
    Fits size blocks sent := by
  intro b1 b b2 q1 p q2 heq _ _ _
  rw [heq, flatten_append, flatten_cons, length_append, length_append] at h
  omega

def identityCodec : Codec := ⟨id, fun data _ => some data⟩

def compressedNet (maxPacket maxPacketSize : ℕ) : Net :=
  { myNetInit (idleVio fun _ => 0) (fun _ => 0) maxPacket maxPacketSize with compress := true }

/-- `receiveAll_sendAll_compressed` for three payloads, the last two in one block. -/
theorem receiveAll_sendAll_compressed_three :
    ∃ sender' nrs fuel received receiver', sendAll identityCodec (compressedNet 8 100)
        ([.write [1, 2, 3, 4, 5, 6, 7, 8, 9], .flush, .write [], .write [10]] ++ [NetOp.flush]) =
          some (sender', nrs) ∧
      receiveAll identityCodec fuel 3 { compressedNet 8 100 with
          vio := { (compressedNet 8 100).vio with input := sender'.vio.sent } } =
        some (received, receiver') ∧
      received.map (fun r => (r.length, r.bytes)) =
        [(9, [1, 2, 3, 4, 5, 6, 7, 8, 9]), (0, []), (1, [10])] := by
  obtain ⟨sender', nrs, hsend, ⟨blocks, W⟩, hreceive⟩ :=
    receiveAll_sendAll_compressed identityCodec (fun _ => rfl) (compressedNet 8 100)
      (compressedNet 8 100) [.write [1, 2, 3, 4, 5, 6, 7, 8, 9], .flush, .write [], .write [10]]
      rfl rfl (by decide) rfl rfl rfl rfl
  have hfits : Fits 100 blocks [[1, 2, 3, 4, 5, 6, 7, 8, 9], [], [10]] :=
    Fits.of_lt _ (by rw [W.framed.length_eq]; decide)
  have hends : ∀ p ∈ [[1, 2, 3, 4, 5, 6, 7, 8, 9], [], [10]], ¬ EndsEmpty p := by decide
  have hempty : EmptyFrameEndsBlock blocks [[1, 2, 3, 4, 5, 6, 7, 8, 9], [], [10]] := by
    intro _ _ _ q₁ p q₂ _ hsent hp
    exact absurd hp (hends p (by rw [hsent]; exact mem_append_right _ mem_cons_self))
  have hlen : ∀ p ∈ [[1, 2, 3, 4, 5, 6, 7, 8, 9], [], [(10 : UInt8)]], p.length ≤ 9 := by decide
  obtain ⟨received, receiver', hrun, hmap⟩ := hreceive blocks W hfits hempty (10 + blocks.length)
    (fun p hp => by have := hlen p hp; omega)
  exact ⟨sender', nrs, _, received, receiver', hsend, hrun, hmap⟩

/-- A sending side with a large write buffer that has written `sent` and holds `content` in
its buffer. -/
structure Buffering (net : Net) (sent content : List UInt8) (nr compressNr : UInt32) : Prop where
  compress_eq : net.compress = true
  usable : net.error ≠ 2
  lt_maxPacket : maxPacketLength < net.maxPacket
  sent_eq : net.vio.sent = sent
  content_eq : window net.buff 0 net.writePos = content
  nr_eq : net.pktNr = nr
  compressNr_eq : net.compressPktNr = compressNr

section

variable (B : Buffering net sent content nr compressNr)
include B

theorem Buffering.writePos_eq : net.writePos = content.length := by
  rw [← B.content_eq, length_window]

theorem Buffering.append (packet : List UInt8) :
    Buffering (net.append packet) sent (content ++ packet) nr compressNr where
  compress_eq := B.compress_eq
  usable := B.usable
  lt_maxPacket := B.lt_maxPacket
  sent_eq := B.sent_eq
  content_eq := by
    have hwin := window_store_append net.buff 0 net.writePos packet
    rw [zero_add, B.content_eq] at hwin
    exact hwin
  nr_eq := B.nr_eq
  compressNr_eq := B.compressNr_eq

theorem Buffering.writeOut (codec : Codec) :
    ∃ net', LibSources.writeOut codec net = some net' ∧
      Buffering net' (sent ++ blockBytes codec true compressNr content) [] nr (compressNr + 1) := by
  refine ⟨{ net with
      vio := { net.vio with sent := sent ++ blockBytes codec true compressNr content }
      compressPktNr := compressNr + 1
      writePos := 0 }, ?_, B.compress_eq, B.usable, B.lt_maxPacket, rfl, rfl, B.nr_eq, rfl⟩
  rw [LibSources.writeOut, netRealWrite_eq B.usable, B.sent_eq, B.content_eq, B.compressNr_eq,
    B.compress_eq, if_pos rfl]
  rfl

variable (codec : Codec) (packet : List UInt8)

theorem Buffering.fits (h : content.length + packet.length ≤ maxPacketLength) :
    ∃ net', netWriteBuff codec net packet = some net' ∧
      Buffering net' sent (content ++ packet) nr compressNr := by
  have hif : net.compress = true ∧ maxPacketLength < net.maxPacket :=
    ⟨B.compress_eq, B.lt_maxPacket⟩
  refine ⟨net.append packet, ?_, B.append packet⟩
  rw [netWriteBuff]
  rw [if_pos hif, if_neg (by rw [B.writePos_eq]; omega)]

theorem Buffering.fills (hne : content.length ≠ 0)
    (hlong : maxPacketLength - content.length < packet.length)
    (hle : packet.length ≤ maxPacketLength) :
    ∃ net', netWriteBuff codec net packet = some net' ∧
      Buffering net' (sent ++ blockBytes codec true compressNr
          (content ++ packet.take (maxPacketLength - content.length)))
        (packet.drop (maxPacketLength - content.length)) nr (compressNr + 1) := by
  have hif : net.compress = true ∧ maxPacketLength < net.maxPacket :=
    ⟨B.compress_eq, B.lt_maxPacket⟩
  obtain ⟨net1, hout, B1⟩ :=
    (B.append (packet.take (maxPacketLength - content.length))).writeOut codec
  have hshort : (packet.drop (maxPacketLength - content.length)).length ≤ maxPacketLength := by
    rw [length_drop]
    omega
  have hlt := B1.lt_maxPacket
  refine ⟨net1.append (packet.drop (maxPacketLength - content.length)), ?_, B1.append _⟩
  rw [netWriteBuff]
  rw [if_pos hif, B.writePos_eq, if_pos hlong, writeThrough, B.writePos_eq, if_pos hne, hout,
    map_some]
  simp only [bind_eq_bind, bind_some]
  rw [if_pos B1.compress_eq, writeBlocks, if_neg (by omega), bind_some]
  exact if_neg (by dsimp only; omega)

theorem Buffering.setPktNr :
    Buffering { net with pktNr := net.pktNr + 1 } sent content (nr + 1) compressNr :=
  ⟨B.compress_eq, B.usable, B.lt_maxPacket, B.sent_eq, B.content_eq, congrArg (· + 1) B.nr_eq,
    B.compressNr_eq⟩

end

theorem sendAll_fullFrame (codec : Codec) (hlen : payload.length = maxPacketLength) :
    ∃ sender' nrs, sendAll codec (compressedNet 20000000 1000000000)
        [.write payload, .write [1], .flush] = some (sender', nrs) ∧
      sender'.vio.sent = blocksBytes codec true 0
        [frameHeader maxPacketLength 0 ++ payload.take (maxPacketLength - 4),
          payload.drop (maxPacketLength - 4) ++ frameHeader 0 1 ++ frameHeader 1 2 ++ [1]] := by
  have hpos : 10000 < maxPacketLength := by decide
  have hdrop : (payload.drop (maxPacketLength - 4)).length = 4 := by
    rw [length_drop]
    omega
  have B0 : Buffering (compressedNet 20000000 1000000000) [] [] 0 0 :=
    ⟨rfl, by decide, by decide, rfl, rfl, rfl, rfl⟩
  -- the full frame
  obtain ⟨net1, h1, B1⟩ := B0.setPktNr.fits codec (frameHeader maxPacketLength 0)
    (by rw [length_frameHeader, length_nil]; omega)
  rw [nil_append] at B1
  obtain ⟨net2, h2, B2⟩ := B1.fills codec payload (by rw [length_frameHeader]; omega)
    (by rw [length_frameHeader]; omega) hlen.le
  rw [length_frameHeader] at B2
  -- the empty frame
  obtain ⟨net3, h3, B3⟩ := B2.setPktNr.fits codec (frameHeader 0 1)
    (by rw [hdrop, length_frameHeader]; omega)
  obtain ⟨net4, h4, B4⟩ := B3.fits codec []
    (by rw [length_append, hdrop, length_frameHeader, length_nil]; omega)
  rw [append_nil] at B4
  -- the second payload
  obtain ⟨net5, h5, B5⟩ := B4.setPktNr.fits codec (frameHeader 1 2)
    (by rw [length_append, hdrop, length_frameHeader, length_frameHeader]; omega)
  obtain ⟨net6, h6, B6⟩ := B5.fits codec [1] (by
      rw [length_append, length_append, hdrop, length_frameHeader, length_frameHeader,
        length_singleton]
      omega)
  obtain ⟨net7, h7, B7⟩ := B6.writeOut codec
  have hfirst : myNetWrite codec (compressedNet 20000000 1000000000) payload = some net4 := by
    have hframes : writeFrames codec (compressedNet 20000000 1000000000) payload =
        some (net2, []) := by
      rw [writeFrames, if_pos hlen.ge]
      rw [take_of_length_le hlen.le, drop_eq_nil_of_le hlen.le]
      refine (congrArg (Option.bind · _) h1).trans ((congrArg (Option.bind · _) h2).trans ?_)
      rw [bind_some, writeFrames, if_neg (by rw [length_nil]; omega)]
    have hhead : int3store ([] : List UInt8).length ++ [net2.pktNr.toUInt8] = frameHeader 0 1 := by
      rw [B2.nr_eq]
      rfl
    simp only [myNetWrite, hframes, hhead, h3, h4, bind_eq_bind, bind_some]
  have hsecond : myNetWrite codec net4 [1] = some net6 := by
    have hframes : writeFrames codec net4 [1] = some (net4, [1]) := by
      rw [writeFrames, if_neg (by rw [length_singleton]; omega)]
    have hhead : int3store [(1 : UInt8)].length ++ [net4.pktNr.toUInt8] = frameHeader 1 2 := by
      rw [B4.nr_eq]
      rfl
    simp only [myNetWrite, hframes, hhead, h5, h6, bind_eq_bind, bind_some]
  have hflush : ∃ net', netFlush codec net6 = some net' ∧ net'.vio = net7.vio := by
    have hpos6 : net6.writePos ≠ 0 := by
      rw [B6.writePos_eq, length_append, length_singleton]
      omega
    refine ⟨{ net7 with pktNr := if net7.compress then net7.compressPktNr else net7.pktNr }, ?_,
      rfl⟩
    rw [netFlush, if_pos hpos6, h7]
    rfl
  obtain ⟨net', hflush, hvio⟩ := hflush
  refine ⟨net', [net4.pktNr, net6.pktNr], ?_, ?_⟩
  · simp only [sendAll, hfirst, hsecond, hflush, bind_eq_bind, bind_some]
    rfl
  · rw [hvio, B7.sent_eq, nil_append]
    simp only [blocksBytes, append_nil]

theorem receiveAll_fullFrame (hcodec : codec.Inverts) (hlen : payload.length = maxPacketLength)
    (H : Holding codec net [] [frameHeader maxPacketLength 0 ++ payload.take (maxPacketLength - 4),
        payload.drop (maxPacketLength - 4) ++ frameHeader 0 1 ++ frameHeader 1 2 ++ [1]])
    (hsize : maxPacketLength + 1000 < net.maxPacketSize) (hfuel : maxPacketLength + 2 < fuel) :
    ∃ received net', receiveAll codec fuel 2 net = some (received, net') ∧
      received.map (fun r => r.length) = [maxPacketLength, 0] := by
  have hpos : 10000 < maxPacketLength := by decide
  set b := frameHeader maxPacketLength 0 ++ payload.take (maxPacketLength - 4) with hb
  set b' := payload.drop (maxPacketLength - 4) ++ frameHeader 0 1 ++ frameHeader 1 2 ++ [1] with hb'
  have hblen : b.length = maxPacketLength := by
    rw [hb, length_append, length_frameHeader, length_take]
    omega
  have hblen' : b'.length = 13 := by
    rw [hb']
    simp only [length_append, length_frameHeader, length_drop, length_singleton]
    omega
  have hends : EndsEmpty payload := ⟨ne_nil_of_length_pos (by omega), by rw [hlen]⟩
  have hframes : frames 0 payload = frameHeader maxPacketLength 0 ++ payload ++ frameHeader 0 1 := by
    rw [frames, if_pos hlen.ge, take_of_length_le hlen.le, drop_eq_nil_of_le hlen.le,
      frames, if_neg (by rw [length_nil]; omega), append_nil]
    rfl
  have hstream : [] ++ [b, b'].flatten = frames 0 payload ++ (frameHeader 1 2 ++ [1]) := by
    rw [hframes, hb, hb']
    simp only [flatten_cons, flatten_nil, nil_append, append_nil, append_assoc]
    rw [← append_assoc (payload.take _), take_append_drop]
  obtain ⟨net1, used, blocks', rest', hread, hbytes, hused, hrest', -, hmax, H1⟩ :=
    H.myNetRead hcodec (by
        intro c hc
        rcases mem_pair.mp hc with rfl | rfl <;> omega)
      hstream
      (by
        intro b1 c b2 heq _
        have := congrArg (fun l => l.flatten.length) heq
        simp only [flatten_append, flatten_cons, length_append, flatten_nil, length_nil] at this ⊢
        omega)
      (by rw [hlen]; exact hfuel)
  -- both blocks have been read
  have hstop : blocks' = [] := by
    rcases eq_nil_or_concat blocks' with h | ⟨l, c, rfl⟩
    · exact h
    have hlast := congrArg getLast? hused
    rw [concat_eq_append, ← append_assoc, getLast?_concat] at hlast
    obtain rfl : b' = c := some.inj hlast
    have := congrArg length hrest'
    simp only [concat_eq_append, flatten_append, flatten_singleton,
      length_append, length_frameHeader, length_singleton] at this
    omega
  subst hstop
  obtain rfl : rest' = frameHeader 1 2 ++ [1] := by
    rw [flatten_nil, append_nil] at hrest'
    exact hrest'
  rw [if_pos hends] at H1
  have hstream1 : (frameHeader 1 2 ++ [1]).set 0 0 ++ ([] : List (List UInt8)).flatten =
      frames 2 [] ++ [1] := by
    rw [frames, if_neg (by rw [length_nil]; omega)]
    rfl
  obtain ⟨net2, -, -, -, hread2, hbytes2, -⟩ := H1.myNetRead hcodec (by simp) hstream1
    (by simp) (show ([] : List UInt8).length + 0 < fuel by rw [length_nil]; omega)
  refine ⟨[⟨payload.length, payload, net1.pktNr⟩, ⟨0, [], net2.pktNr⟩], net2, ?_, ?_⟩
  · simp only [receiveAll, hread, hread2, hbytes, bind_eq_bind, bind_some]
    rfl
  · simp only [map_cons, map_nil, hlen]

/-- The two ways in which the round trip of compressed packets fails. A receiving side with
`max_packet_size` 10 cannot read two payloads of six bytes that were flushed together. After
a payload of one full frame, the next payload in the same block is read with length 0. -/
theorem receiveAll_sendAll_compressed_fails :
    (∃ sender' nrs, sendAll identityCodec (compressedNet 100 1000)
        [.write [1, 2, 3, 4, 5, 6], .write [1, 2, 3, 4, 5, 6], .flush] = some (sender', nrs) ∧
      ∀ fuel, receiveAll identityCodec fuel 2 { compressedNet 8 10 with
        vio := { (compressedNet 8 10).vio with input := sender'.vio.sent } } = none) ∧
    ∃ sender' nrs, sendAll identityCodec (compressedNet 20000000 1000000000)
        [.write (replicate maxPacketLength 7), .write [1], .flush] = some (sender', nrs) ∧
      ∀ fuel, maxPacketLength + 2 < fuel → ∃ received receiver', receiveAll identityCodec fuel 2
            { compressedNet 20000000 1000000000 with
              vio := { (compressedNet 20000000 1000000000).vio with input := sender'.vio.sent } } =
          some (received, receiver') ∧
        received.map (fun r => r.length) = [maxPacketLength, 0] := by
  constructor
  · have hsent : (sendAll identityCodec (compressedNet 100 1000)
        [.write [1, 2, 3, 4, 5, 6], .write [1, 2, 3, 4, 5, 6], .flush]).map (·.1.vio.sent) =
        some [20, 0, 0, 0, 0, 0, 0, 6, 0, 0, 0, 1, 2, 3, 4, 5, 6, 6, 0, 0, 1, 1, 2, 3, 4, 5, 6] := by
      decide +kernel
    obtain ⟨⟨sender', nrs⟩, hsend, hbytes⟩ := map_eq_some_iff.mp hsent
    refine ⟨sender', nrs, hsend, fun fuel => ?_⟩
    rw [hbytes]
    cases fuel with
    | zero => rfl
    | succ fuel =>
      have hblock : (readBlock identityCodec { compressedNet 8 10 with
          vio := { (compressedNet 8 10).vio with
            input := [20, 0, 0, 0, 0, 0, 0, 6, 0, 0, 0, 1, 2, 3, 4, 5, 6, 6, 0, 0, 1, 1, 2, 3, 4,
              5, 6] } } ⟨0, 0, 0, 0⟩).isNone = true := by
        decide +kernel
      have hnone := isNone_iff_eq_none.mp hblock
      refine (congrArg (bind · _) (?_ : myNetRead identityCodec _ _ = none)).trans rfl
      refine (congrArg (bind · _) (?_ : assemble identityCodec _ _ _ = none)).trans rfl
      exact congrArg (bind · _) hnone
  · obtain ⟨sender', nrs, hsend, hbytes⟩ := sendAll_fullFrame identityCodec
      (length_replicate (n := maxPacketLength) (a := (7 : UInt8)))
    refine ⟨sender', nrs, hsend, fun fuel hfuel => ?_⟩
    exact receiveAll_fullFrame (fun _ => rfl) length_replicate
      ⟨rfl, hbytes, rfl, Nat.zero_le _, rfl⟩
      (show maxPacketLength + 1000 < 1000000000 by decide) hfuel

end LibSources
