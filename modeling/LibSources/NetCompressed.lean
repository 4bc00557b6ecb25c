import LibSources.NetRead

/-!
# The Round Trip of Compressed Packets

Under compression the frames are cut into blocks that need not end where a packet ends.
`my_net_read` keeps the rest of a block in its buffer, puts the frames of a packet together there,
and ends the packet with a null byte whose place it restores on the next call.
-/

namespace LibSources

open Nat List Option

variable {net : Net} {codec : Codec} {st : Assembly} {pre done rest : List UInt8}
  {blocks : List (List UInt8)} {nr : UInt32}

def framedLength (payload : List UInt8) : ℕ :=
  payload.length + netHeaderSize * (payload.length / maxPacketLength + 1)

section

variable (nr : UInt32) (payload : List UInt8)

theorem frames_eq : frames nr payload = frameHeader (min payload.length maxPacketLength) nr ++
      (payload.take maxPacketLength ++ if maxPacketLength ≤ payload.length then
        frames (nr + 1) (payload.drop maxPacketLength) else []) := by
  rw [frames]
  split
  · rw [min_eq_right ‹_›, append_assoc]
  · rw [Nat.min_eq_left (by omega), take_of_length_le (by omega), append_nil]

theorem length_frames : (frames nr payload).length = framedLength payload := by
  induction hn : payload.length using Nat.strong_induction_on generalizing payload nr with
  | _ n ih =>
    have hpos := maxPacketLength_pos
    rw [frames, framedLength]
    split
    · rename_i hlong
      rw [length_append, length_append, length_frameHeader,
        ih _ (by rw [length_drop]; omega) (nr + 1) _ rfl, framedLength, length_take,
        length_drop, div_eq_sub_div hpos hlong, min_eq_left hlong, netHeaderSize]
      omega
    · rw [length_append, length_frameHeader, div_eq_of_lt (by omega), netHeaderSize]
      omega

end

variable {payload block b stream : List UInt8} {n framed processed held maxSize : ℕ}
  {bs : List (List UInt8)}

theorem framedLength_drop (h : maxPacketLength ≤ payload.length) :
    framedLength payload = maxPacketLength + 4 + framedLength (payload.drop maxPacketLength) := by
  have hpos := maxPacketLength_pos
  rw [framedLength, framedLength, length_drop, div_eq_sub_div hpos h, netHeaderSize]
  omega

/-! ### Reading a block -/

theorem readHeader_compressed (hcomp : net.compress = true) {complen : ℕ} (hn : n < 2 ^ 24)
    (hcomplen : complen < 2 ^ 24) {rest : List UInt8}
    (hinput : net.vio.input = (int3store n ++ [net.pktNr.toUInt8] ++ int3store complen) ++ rest) :
    ∃ vio, vio.input = rest ∧ readHeader net = some (n, complen, { net with
      vio := vio
      buff := store net.buff net.whereB (int3store n ++ [net.pktNr.toUInt8] ++ int3store complen)
      pktNr := net.pktNr + 1
      compressPktNr := net.pktNr + 1 }) := by
  obtain ⟨vio, hvio, hread⟩ := readLoop_eq net net.whereB hinput
  obtain ⟨hhead, htail⟩ := window_eq_append (window_store_self net.buff net.whereB
      (int3store n ++ [net.pktNr.toUInt8] ++ int3store complen))
  obtain ⟨hlen, hnr⟩ := frameHeader_of_window hn hhead
  have hcl := uint3korr_of_window hcomplen htail
  refine ⟨vio, hvio, ?_⟩
  change readLoop net net.whereB 7 = _ at hread
  change uint3korr _ (net.whereB + 4) = complen at hcl
  simp only [readHeader, hcomp, netHeaderSize, compHeaderSize, if_true, hread,
    bind_eq_bind, bind_some, hlen, hnr, hcl, ne_eq, not_true_eq_false, if_false,
    reduceAdd]

def Codec.Inverts (codec : Codec) : Prop :=
  ∀ block, codec.uncompress (codec.compress block) block.length = some block

theorem myCompress_cases (hcodec : codec.Inverts) (block : List UInt8) :
    myCompress codec block = (block, 0) ∨
    ∃ data, myCompress codec block = (data, block.length) ∧ data.length < block.length ∧
      codec.uncompress data block.length = some block := by
  rw [myCompress]
  split_ifs with h1 h2
  · exact .inl rfl
  · exact .inl rfl
  · exact .inr ⟨codec.compress block, rfl, by omega, hcodec block⟩

theorem myRealRead_block (hcodec : codec.Inverts) (net : Net) (hcomp : net.compress = true)
    {rest : List UInt8} (hblock : block.length ≤ maxPacketLength)
    (hinput : net.vio.input = blockBytes codec true net.pktNr block ++ rest)
    (hsize : net.whereB + block.length < net.maxPacketSize) :
    ∃ len complen net' buff', myRealRead net = some (len, complen, net') ∧
      myUncompress codec net'.buff net.whereB len complen = some (buff', block.length) ∧
      net'.pktNr = net.pktNr + 1 ∧ net'.whereB = net.whereB ∧
      ReadTo net { net' with buff := buff' } block rest := by
  have hlt : maxPacketLength < 2 ^ 24 := by decide
  rw [blockBytes, if_pos rfl, append_assoc] at hinput
  set data := (myCompress codec block).1 with hdata
  set complen := (myCompress codec block).2 with hcomplen
  have hbounds : data.length ≤ block.length ∧ complen ≤ block.length ∧
      max data.length complen = block.length := by
    rcases myCompress_cases hcodec block with h | ⟨d, h, hd, -⟩ <;> rw [hdata, hcomplen, h] <;>
      dsimp only <;> omega
  obtain ⟨vio, hvio, hhead⟩ := readHeader_compressed hcomp (by omega) (by omega) hinput
  obtain ⟨net', hread, hnr, hwhere, T⟩ := myRealRead_of_header hvio hhead (by omega)
  rcases myCompress_cases hcodec block with h | ⟨d, h, hd, huncompress⟩
  · -- the block was sent as it is
    have hd : data = block := by rw [hdata, h]
    have hzero : complen = 0 := by rw [hcomplen, h]
    rw [hd] at hread T
    refine ⟨_, _, net', net'.buff, hread, ?_, hnr, hwhere, T⟩
    rw [myUncompress, if_neg (not_not.mpr hzero)]
  have hd' : data = d := by rw [hdata, h]
  have hlen : complen = block.length := by rw [hcomplen, h]
  refine ⟨_, _, net', store net'.buff net.whereB block, hread, ?_, hnr, hwhere,
    T.compress_eq, T.maxPacketSize_eq, T.input_eq, window_store_self _ _ _, fun j hj => ?_⟩
  · rw [myUncompress, if_pos (by omega), T.data_eq, hd', hlen, huncompress]
    rfl
  · exact (store_of_lt _ _ hj).trans (T.below_eq j hj)

/-! ### The data in the buffer -/

/-- The state of the loop of `my_net_read`. From `first_packet_offset` on, the buffer holds
`pre`, which the loop has dealt with, and `rest`, which it has not. Before the first frame
`pre` is empty; after it `pre` is a header and the bytes `done` of full frames, and the
packet has been moved to the start of the buffer. -/
structure Assembling (net : Net) (st : Assembly) (pre done rest : List UInt8) : Prop where
  start_eq : st.startOfPacket = st.firstPacketOffset + pre.length
  bufLength_eq : st.bufLength = st.startOfPacket + rest.length
  data_eq : window net.buff st.firstPacketOffset (pre ++ rest).length = pre ++ rest
  phase : (st.multiBytePacket = 0 ∧ pre = [] ∧ done = []) ∨
    (st.multiBytePacket = netHeaderSize ∧ st.firstPacketOffset = 0 ∧ done ≠ [] ∧
      maxPacketLength ∣ done.length ∧ ∃ header : List UInt8, header.length = 4 ∧
        pre = header ++ done)

theorem Assembling.rest_eq (A : Assembling net st pre done rest) :
    window net.buff st.startOfPacket rest.length = rest := by
  rw [A.start_eq]
  exact (window_eq_append A.data_eq).2

theorem moveDown_eq (net : Net) (st : Assembly) (content : List UInt8)
    (hlen : st.bufLength = st.firstPacketOffset + content.length)
    (hdata : window net.buff st.firstPacketOffset content.length = content) :
    ∃ buff', moveDown net st = ({ net with buff := buff' },
        ⟨content.length, st.startOfPacket - st.firstPacketOffset, 0, st.multiBytePacket⟩) ∧
      window buff' 0 content.length = content := by
  rw [moveDown]
  split
  · refine ⟨memmove net.buff 0 st.firstPacketOffset (st.bufLength - st.firstPacketOffset), ?_, ?_⟩
    · rw [hlen, add_tsub_cancel_left]
    · rw [hlen, add_tsub_cancel_left, memmove, hdata]
      exact window_store_self _ _ _
  rename_i h
  have hzero : st.firstPacketOffset = 0 := not_not.mp h
  rw [hzero] at hdata
  refine ⟨net.buff, ?_, hdata⟩
  have hst : st = ⟨content.length, st.startOfPacket - st.firstPacketOffset, 0,
      st.multiBytePacket⟩ := by
    rcases st with ⟨l, s, f, m⟩
    dsimp only at hzero hlen ⊢
    rw [hlen, hzero, zero_add, tsub_zero]
  exact congrArg (Prod.mk net) hst

theorem readBlock_eq (hcodec : codec.Inverts) (A : Assembling net st pre done rest)
    (hcomp : net.compress = true) (hblock : block.length ≤ maxPacketLength)
    (hinput : net.vio.input = blocksBytes codec true net.pktNr (block :: blocks))
    (hsize : pre.length + rest.length + block.length < net.maxPacketSize) :
    ∃ net' st', readBlock codec net st = some (net', st') ∧
      Assembling net' st' pre done (rest ++ block) ∧ net'.compress = true ∧
      net'.vio.input = blocksBytes codec true net'.pktNr blocks ∧
      net'.maxPacketSize = net.maxPacketSize := by
  have hlen : st.bufLength = st.firstPacketOffset + (pre ++ rest).length := by
    rw [A.bufLength_eq, A.start_eq, length_append]
    omega
  obtain ⟨buff1, hdown, hdata1⟩ := moveDown_eq net st _ hlen A.data_eq
  obtain ⟨len, complen, net2, buff2, hread, huncompress, hnr, hwhere, T⟩ := myRealRead_block hcodec
    { net with buff := buff1, whereB := (pre ++ rest).length } hcomp hblock hinput
    (by rw [length_append]; exact hsize)
  refine ⟨{ net2 with buff := buff2 }, ⟨(pre ++ rest).length + block.length,
    st.startOfPacket - st.firstPacketOffset, 0, st.multiBytePacket⟩, ?_, ?_,
    T.compress_eq.trans hcomp, ?_, T.maxPacketSize_eq⟩
  · rw [readBlock, hdown]
    simp only [hread, hwhere, huncompress, bind_eq_bind, bind_some]
    rfl
  · refine ⟨?_, ?_, ?_, ?_⟩
    · rw [A.start_eq, add_tsub_cancel_left, zero_add]
    · dsimp only
      rw [A.start_eq, add_tsub_cancel_left, length_append, length_append]
      omega
    · dsimp only
      rw [← append_assoc, length_append, window_add, zero_add]
      have hbelow : window buff2 0 (pre ++ rest).length = window buff1 0 (pre ++ rest).length :=
        window_congr fun j _ hj => T.below_eq j (by rw [zero_add] at hj; exact hj)
      rw [hbelow, hdata1]
      exact congrArg _ T.data_eq
    · rcases A.phase with ⟨hm, hpre, hdone⟩ | ⟨hm, -, hphase⟩
      · exact .inl ⟨hm, hpre, hdone⟩
      · exact .inr ⟨hm, rfl, hphase⟩
  · have := T.input_eq
    rw [← hnr] at this
    exact this

theorem takeFrame_eq {pre done chunk rest : List UInt8}
    (A : Assembling net st pre done (frameHeader n nr ++ (chunk ++ rest))) (hn : chunk.length = n) :
    ∃ buff' st' header, takeFrame net st n = ({ net with buff := buff' }, st') ∧
      header.length = 4 ∧ st'.firstPacketOffset = st.firstPacketOffset ∧
      st'.startOfPacket = st.firstPacketOffset + (header ++ (done ++ chunk)).length ∧
      st'.bufLength = st'.startOfPacket + rest.length ∧
      window buff' st.firstPacketOffset (header ++ (done ++ chunk) ++ rest).length =
        header ++ (done ++ chunk) ++ rest := by
  have hstart := A.start_eq
  have hbuf := A.bufLength_eq
  have hdata := A.data_eq
  rw [takeFrame]
  rcases A.phase with ⟨hm, rfl, rfl⟩ | ⟨hm, hfirst, -, -, header, hheader, rfl⟩
  · rw [if_neg (not_not.mpr hm)]
    refine ⟨net.buff, _, frameHeader n nr, rfl, rfl, rfl, ?_, ?_, ?_⟩
    · rw [hstart]
      simp only [length_append, length_nil, length_frameHeader, netHeaderSize, hn]
      omega
    · rw [hbuf]
      simp only [length_append, length_frameHeader, netHeaderSize, hn]
      omega
    · simpa using hdata
  rw [if_pos (by rw [hm]; decide), hfirst]
  rw [hfirst, zero_add] at hstart
  have hrest := (window_eq_append A.rest_eq).2
  rw [length_frameHeader] at hrest
  have hcount : st.bufLength - st.startOfPacket = (chunk ++ rest).length + netHeaderSize := by
    rw [hbuf]
    simp only [length_append, length_frameHeader, netHeaderSize]
    omega
  -- the bytes moved down are the frame, what follows it, and four bytes behind the data
  have hmoved : window net.buff (0 + st.startOfPacket + netHeaderSize)
      (st.bufLength - st.startOfPacket) = (chunk ++ rest) ++
        window net.buff (st.startOfPacket + netHeaderSize + (chunk ++ rest).length)
          netHeaderSize := by
    rw [hcount, window_add, zero_add]
    exact congrArg (· ++ _) hrest
  refine ⟨_, _, header, rfl, hheader, rfl, ?_, ?_, ?_⟩
  · dsimp only
    rw [hstart]
    simp only [length_append, hn]
    omega
  · dsimp only
    rw [hbuf]
    simp only [length_append, length_frameHeader, netHeaderSize, hn]
    omega
  have hassoc : header ++ (done ++ chunk) ++ rest = (header ++ done) ++ (chunk ++ rest) := by
    simp only [append_assoc]
  have hsum : (header ++ (done ++ chunk) ++ rest).length =
      st.startOfPacket + (chunk ++ rest).length := by
    rw [hassoc, length_append, hstart]
  have hpre := (window_eq_append hdata).1
  rw [hfirst, ← hstart] at hpre
  rw [hsum, memmove, hmoved, zero_add, window_add, zero_add,
    window_store_of_le _ _ (by omega), hpre, hassoc]
  exact congrArg _ (window_eq_append (window_store_self net.buff st.startOfPacket _)).1

/-! ### Putting a packet together -/

theorem exists_eq_append {α : Type*} {l t a b : List α} (h : l ++ t = a ++ b)
    (hlen : a.length ≤ l.length) : ∃ m, l = a ++ m ∧ m ++ t = b := by
  refine ⟨l.drop a.length, ?_⟩
  have hsplit : l.take a.length ++ (l.drop a.length ++ t) = a ++ b := by
    rw [← append_assoc, take_append_drop, h]
  obtain ⟨htake, hdrop⟩ := append_inj hsplit (by rw [length_take]; omega)
  exact ⟨by rw [← htake, length_take, min_eq_left hlen, take_append_drop], hdrop⟩

/-- A packet whose last frame is empty, after full ones. -/
def EndsEmpty (payload : List UInt8) : Prop := payload ≠ [] ∧ maxPacketLength ∣ payload.length

instance : DecidablePred EndsEmpty :=
  fun payload => inferInstanceAs (Decidable (payload ≠ [] ∧ maxPacketLength ∣ payload.length))

/-- What the loop of `my_net_read` leaves: the packet, and behind it the data of the next
packets. `multi_byte_packet` is set when the packet ended in an empty frame; the header of
that frame is still in the buffer. -/
structure Assembled (net : Net) (st : Assembly) (payload rest : List UInt8) : Prop where
  start_eq : st.startOfPacket =
    st.firstPacketOffset + netHeaderSize + payload.length + st.multiBytePacket
  bufLength_eq : st.bufLength = st.startOfPacket + rest.length
  payload_eq : window net.buff (st.firstPacketOffset + netHeaderSize) payload.length = payload
  rest_eq : window net.buff st.startOfPacket rest.length = rest
  multi : (st.multiBytePacket = 0 ∧ ¬ EndsEmpty payload) ∨
    (st.multiBytePacket = netHeaderSize ∧ EndsEmpty payload ∧
      net.buff (st.firstPacketOffset + netHeaderSize + payload.length) = 0)

theorem Assembling.emptyFrame (A : Assembling net st pre done (frameHeader 0 nr ++ rest)) :
    Assembled net { st with startOfPacket := st.startOfPacket + netHeaderSize } done rest := by
  have hrest := (window_eq_append A.rest_eq).2
  have hbuf : st.bufLength = st.startOfPacket + netHeaderSize + rest.length := by
    rw [A.bufLength_eq, length_append, length_frameHeader, netHeaderSize]
    omega
  rcases A.phase with ⟨hm, rfl, rfl⟩ | ⟨hm, hfirst, hne, hdvd, header, hheader, rfl⟩
  · refine ⟨?_, hbuf, rfl, hrest, .inl ⟨hm, fun h => h.1 rfl⟩⟩
    dsimp only
    rw [A.start_eq, hm, length_nil]
    omega
  refine ⟨?_, hbuf, ?_, hrest, .inr ⟨hm, ⟨hne, hdvd⟩, ?_⟩⟩
  · dsimp only
    rw [A.start_eq, hm, length_append, hheader, netHeaderSize]
    omega
  · have hpre := (window_eq_append A.data_eq).1
    have hdone := (window_eq_append hpre).2
    rw [hheader] at hdone
    exact hdone
  · -- the low byte of the length of the empty frame
    have hzero := (window_eq_append A.rest_eq).1
    rw [length_frameHeader, window_succ, A.start_eq, length_append, hheader] at hzero
    have := (cons.inj hzero).1
    rw [← add_assoc] at this
    exact this

section

variable {pre done chunk rest : List UInt8}

theorem Assembling.lastFrame (A : Assembling net st pre done (frameHeader n nr ++ (chunk ++ rest)))
    (hn : chunk.length = n) (hpos : n ≠ 0) (hlt : n < maxPacketLength) :
    ∃ buff' st', takeFrame net st n = ({ net with buff := buff' }, st') ∧
      Assembled { net with buff := buff' } { st' with multiBytePacket := 0 } (done ++ chunk)
        rest := by
  obtain ⟨buff', st', header, htake, hheader, hfirst, hstart, hbuf, hdata⟩ := takeFrame_eq A hn
  obtain ⟨hpacket, hrest⟩ := window_eq_append hdata
  have hdone : maxPacketLength ∣ done.length := by
    rcases A.phase with ⟨-, -, rfl⟩ | ⟨-, -, -, hdvd, -⟩
    · exact dvd_zero _
    · exact hdvd
  have hend : ¬ EndsEmpty (done ++ chunk) := by
    rintro ⟨-, hdvd⟩
    rw [length_append, Nat.dvd_add_right hdone, hn] at hdvd
    exact hpos (eq_zero_of_dvd_of_lt hdvd hlt)
  refine ⟨buff', st', htake, ?_, hbuf, ?_, ?_, .inl ⟨rfl, hend⟩⟩
  · dsimp only
    rw [hstart, hfirst, length_append, hheader, netHeaderSize]
    omega
  · have := (window_eq_append hpacket).2
    rw [hheader] at this
    rw [hfirst]
    exact this
  · rw [hstart]
    exact hrest

theorem Assembling.fullFrame
    (A : Assembling net st pre done (frameHeader maxPacketLength nr ++ (chunk ++ rest)))
    (hn : chunk.length = maxPacketLength) :
    ∃ buff1 st1 buff' st' header, takeFrame net st maxPacketLength =
        ({ net with buff := buff1 }, st1) ∧
      moveDown { net with buff := buff1 } { st1 with multiBytePacket := netHeaderSize } =
        ({ net with buff := buff' }, st') ∧ header.length = 4 ∧
      Assembling { net with buff := buff' } st' (header ++ (done ++ chunk)) (done ++ chunk)
        rest := by
  obtain ⟨buff1, st1, header, htake, hheader, hfirst, hstart, hbuf, hdata⟩ := takeFrame_eq A hn
  have hpos := maxPacketLength_pos
  rw [← hfirst] at hstart hdata
  obtain ⟨buff', hdown, hdata'⟩ := moveDown_eq { net with buff := buff1 }
    { st1 with multiBytePacket := netHeaderSize } (header ++ (done ++ chunk) ++ rest)
    (by dsimp only; rw [hbuf, hstart]; simp only [length_append]; omega) hdata
  refine ⟨buff1, st1, buff', _, header, htake, hdown, hheader, ?_, ?_, hdata', ?_⟩
  · dsimp only
    rw [hstart]
    omega
  · dsimp only
    rw [hstart, length_append]
    omega
  refine .inr ⟨rfl, rfl, ?_, ?_, header, hheader, rfl⟩
  · refine ne_nil_of_length_pos ?_
    rw [length_append]
    omega
  rw [length_append, hn]
  refine dvd_add ?_ (dvd_refl _)
  rcases A.phase with ⟨-, -, rfl⟩ | ⟨-, -, -, hdvd, -⟩
  · exact dvd_zero _
  · exact hdvd

end

/-- Every block that is read while fewer than `framed` bytes are there fits into the buffer:
`held` bytes are not used yet, and `processed` bytes may stand before them. -/
def BlocksFit (maxSize processed held : ℕ) (blocks : List (List UInt8)) (framed : ℕ) : Prop :=
  ∀ b₁ b b₂, blocks = b₁ ++ b :: b₂ → held + b₁.flatten.length < framed →
    processed + held + b₁.flatten.length + b.length < maxSize

theorem BlocksFit.head (h : BlocksFit maxSize processed held (b :: bs) framed)
    (hlt : held < framed) : processed + held + b.length < maxSize := by
  have hfits := h [] b bs rfl
  rw [flatten_nil, length_nil, add_zero, add_zero] at hfits
  exact hfits hlt

theorem BlocksFit.tail (h : BlocksFit maxSize processed held (b :: bs) framed) :
    BlocksFit maxSize processed (held + b.length) bs framed := by
  intro b1 c b2 heq hlt
  have hfits := h (b :: b1) c b2 (by rw [heq]; rfl)
  rw [flatten_cons, length_append] at hfits
  have := hfits (by omega)
  omega

theorem BlocksFit.used (h : BlocksFit maxSize processed (n + held) blocks (n + framed)) :
    BlocksFit maxSize (processed + n) held blocks framed := by
  intro b1 b b2 heq hlt
  have := h b1 b b2 heq (by omega)
  omega

/-- The loop of `my_net_read` puts one packet together, reading as many blocks as it needs. -/
theorem assemble_eq (hcodec : codec.Inverts) (fuel : ℕ) (A : Assembling net st pre done rest)
    (hcomp : net.compress = true) (hblocks : ∀ b ∈ blocks, b.length ≤ maxPacketLength)
    (hinput : net.vio.input = blocksBytes codec true net.pktNr blocks)
    (hstream : rest ++ blocks.flatten = frames nr payload ++ stream) (hpre : pre.length ≤ processed)
    (hfits : BlocksFit net.maxPacketSize processed rest.length blocks (framedLength payload))
    (hfuel : payload.length + blocks.length < fuel) :
    ∃ net' st' used blocks' rest', assemble codec fuel net st = some (net', st') ∧
      blocks = used ++ blocks' ∧ rest' ++ blocks'.flatten = stream ∧
      (used = [] ∨ ∃ c b, used = c ++ [b] ∧ rest.length + c.flatten.length < framedLength payload) ∧
      Assembled net' st' (done ++ payload) rest' ∧ net'.compress = true ∧
      net'.vio.input = blocksBytes codec true net'.pktNr blocks' ∧
      net'.maxPacketSize = net.maxPacketSize := by
  induction fuel generalizing net st pre done rest blocks nr payload processed with
  | zero => omega
  | succ fuel ih =>
    have hpos := maxPacketLength_pos
    have hlen : st.bufLength - st.startOfPacket = rest.length := by
      rw [A.bufLength_eq, add_tsub_cancel_left]
    have hframed : min payload.length maxPacketLength + 4 ≤ framedLength payload := by
      rw [← length_frames nr payload, frames_eq, length_append, length_frameHeader,
        length_append, length_take]
      omega
    set n := min payload.length maxPacketLength with hn
    rw [frames_eq, ← hn, append_assoc] at hstream
    have hread : 4 ≤ rest.length → uint3korr net.buff st.startOfPacket = n := by
      intro h
      obtain ⟨rest2, hrest2, -⟩ := exists_eq_append hstream h
      have hwin := A.rest_eq
      rw [hrest2] at hwin
      have hlt : maxPacketLength < 2 ^ 24 := by decide
      exact (frameHeader_of_window (by omega) (window_eq_append hwin).1).1
    rw [assemble]
    rw [hlen, netHeaderSize]
    by_cases hshort : rest.length < n + 4
    · -- the frame is not complete: another block is read
      have hno : ¬ (4 ≤ rest.length ∧ uint3korr net.buff st.startOfPacket = 0) := by
        rintro ⟨h, hzero⟩
        have := hread h
        omega
      have hno' : ¬ (4 ≤ rest.length ∧ uint3korr net.buff st.startOfPacket + 4 ≤ rest.length) := by
        rintro ⟨h, hle⟩
        have := hread h
        omega
      rw [if_neg hno, if_neg hno']
      cases blocks with
      | nil =>
        have := congrArg List.length hstream
        rw [flatten_nil, append_nil, length_append, length_frameHeader,
          length_append, length_append, length_take] at this
        omega
      | cons b bs =>
        have hb := hfits.head (by omega)
        obtain ⟨net1, st1, hblock, A1, hcomp1, hinput1, hmax1⟩ := readBlock_eq hcodec A hcomp
          (hblocks b mem_cons_self) hinput (by omega)
        have hstream1 : (rest ++ b) ++ bs.flatten = frames nr payload ++ stream := by
          rw [frames_eq, ← hn, append_assoc, append_assoc, ← hstream, flatten_cons]
        obtain ⟨net', st', used, blocks', rest', hloop, hused, hrest', hlast, hend⟩ :=
          ih A1 hcomp1 (fun c hc => hblocks c (mem_cons_of_mem b hc)) hinput1 hstream1 hpre
            (by rw [hmax1, length_append]; exact hfits.tail)
            (by rw [length_cons] at hfuel; omega)
        rw [hmax1] at hend
        refine ⟨net', st', b :: used, blocks', rest', ?_, by rw [hused]; rfl, hrest', ?_, hend⟩
        · rw [hblock]
          exact hloop
        refine .inr ?_
        rcases hlast with rfl | ⟨c, d, rfl, hlt⟩
        · exact ⟨[], b, rfl, by rw [flatten_nil, length_nil]; omega⟩
        refine ⟨b :: c, d, rfl, ?_⟩
        rw [flatten_cons, length_append]
        rw [length_append] at hlt
        omega
    -- the whole frame is in the buffer
    obtain ⟨rest2, rfl, hrest2⟩ := exists_eq_append hstream (by rw [length_frameHeader]; omega)
    rw [length_append, length_frameHeader] at hshort
    have hlen4 : 4 ≤ (frameHeader n nr ++ rest2).length := by
      rw [length_append, length_frameHeader]
      omega
    have hread' := hread hlen4
    by_cases hzero : n = 0
    · obtain rfl : payload = [] := length_eq_zero_iff.mp (by omega)
      rw [hzero] at A
      rw [if_pos ⟨hlen4, hread'.trans hzero⟩]
      refine ⟨net, _, [], blocks, rest2, rfl, rfl, ?_, .inl rfl, ?_, hcomp, hinput, rfl⟩
      · rw [hrest2, if_neg (by rw [length_nil]; omega)]
        rfl
      · rw [append_nil]
        exact A.emptyFrame
    rw [hread', if_neg (fun h => hzero h.2),
      if_pos ⟨hlen4, by rw [length_append, length_frameHeader]; omega⟩]
    have hchunk : (payload.take maxPacketLength).length = n := by
      rw [length_take, hn]
      omega
    rw [append_assoc] at hrest2
    obtain ⟨rest3, rfl, hrest3⟩ := exists_eq_append hrest2 (by omega)
    by_cases hmax : n = maxPacketLength
    · -- a full frame: the next one follows
      have hlong : maxPacketLength ≤ payload.length := by omega
      rw [hmax] at A hchunk
      obtain ⟨buff1, st1, buff2, st2, header, htake, hdown, hheader, A2⟩ := A.fullFrame hchunk
      rw [if_pos hlong] at hrest3
      rw [netHeaderSize] at hdown
      have hpre2 : (header ++ (done ++ payload.take maxPacketLength)).length ≤
          processed + (n + 4) := by
        rw [length_append, length_append, hchunk, hheader, hmax]
        rcases A.phase with ⟨-, -, rfl⟩ | ⟨-, -, -, -, header', hheader', rfl⟩
        · rw [length_nil]
          omega
        · rw [length_append, hheader'] at hpre
          omega
      have hheld : (frameHeader n nr ++ (payload.take maxPacketLength ++ rest3)).length =
          n + 4 + rest3.length := by
        rw [length_append, length_append, length_frameHeader, hchunk, hmax]
        omega
      have hframed' : framedLength payload =
          n + 4 + framedLength (payload.drop maxPacketLength) := by
        rw [framedLength_drop hlong, hmax]
      rw [hheld, hframed'] at hfits
      obtain ⟨net', st', used, blocks', rest', hloop, hused, hrest', hlast, hend, hgoal⟩ :=
        ih A2 hcomp hblocks hinput hrest3 hpre2 hfits.used (by rw [length_drop]; omega)
      rw [append_assoc, take_append_drop] at hend
      refine ⟨net', st', used, blocks', rest', ?_, hused, hrest', ?_, hend, hgoal⟩
      · rw [hmax, htake]
        refine (if_neg (not_not.mpr rfl)).trans ?_
        rw [hdown]
        exact hloop
      refine hlast.imp_right ?_
      rintro ⟨c, b, rfl, hlt⟩
      refine ⟨c, b, rfl, ?_⟩
      rw [hheld, hframed']
      omega
    · obtain ⟨buff', st', htake, hend⟩ := A.lastFrame hchunk hzero (by omega)
      have hlt : payload.length < maxPacketLength := by omega
      rw [if_neg (by omega)] at hrest3
      rw [take_of_length_le hlt.le] at hend
      rw [htake]
      exact ⟨_, _, [], blocks, rest3, if_pos hmax, rfl, hrest3, .inl rfl, hend, hcomp, hinput, rfl⟩

/-- The receiving side between two calls of `my_net_read`: its buffer holds `rest`, the end
of the last block, with the first byte kept in `save_char`, and `blocks` are still to come. -/
structure Holding (codec : Codec) (net : Net) (rest : List UInt8) (blocks : List (List UInt8)) :
    Prop where
  compress_eq : net.compress = true
  input_eq : net.vio.input = blocksBytes codec true net.pktNr blocks
  remain_eq : net.remainInBuf = rest.length
  le_bufLength : rest.length ≤ net.bufLength
  data_eq : window (store net.buff (net.bufLength - rest.length) [net.saveChar])
    (net.bufLength - rest.length) rest.length = rest

/-- One call of `my_net_read` returns the next payload and keeps the rest of the last
block. When the packet ended in an empty frame, the end 0 is put before the header of
that frame but is taken back behind it, so the next header loses its first byte. -/
theorem Holding.myNetRead (hcodec : codec.Inverts) {rest : List UInt8}
    (H : Holding codec net rest blocks) (hblocks : ∀ b ∈ blocks, b.length ≤ maxPacketLength)
    (hstream : rest ++ blocks.flatten = frames nr payload ++ stream)
    (hfits : ∀ b1 b b2, blocks = b1 ++ b :: b2 →
      rest.length + b1.flatten.length < framedLength payload →
      rest.length + b1.flatten.length + b.length < net.maxPacketSize) {fuel : ℕ}
    (hfuel : payload.length + blocks.length < fuel) :
    ∃ net' used blocks' rest', myNetRead codec fuel net = some (payload.length, net') ∧
      window net'.buff net'.readPos payload.length = payload ∧
      blocks = used ++ blocks' ∧ rest' ++ blocks'.flatten = stream ∧
      (used = [] ∨ ∃ c b, used = c ++ [b] ∧ rest.length + c.flatten.length < framedLength payload) ∧
      net'.maxPacketSize = net.maxPacketSize ∧
      Holding codec net' (if EndsEmpty payload then rest'.set 0 0 else rest') blocks' := by
  -- the byte under the end 0 is put back
  obtain ⟨buff0, st0, hresume, A⟩ : ∃ buff0 st0, resume net = ({ net with buff := buff0 }, st0) ∧
      Assembling { net with buff := buff0 } st0 [] [] rest := by
    rw [resume]
    by_cases h : net.remainInBuf = 0
    · obtain rfl : rest = [] := length_eq_zero_iff.mp (H.remain_eq.symm.trans h)
      exact ⟨net.buff, ⟨0, 0, 0, 0⟩, if_neg (not_not.mpr h), rfl, rfl, rfl, .inl ⟨rfl, rfl, rfl⟩⟩
    have hle := H.le_bufLength
    have hdata := H.data_eq
    rw [← H.remain_eq] at hle hdata
    refine ⟨_, _, if_pos h, rfl, ?_, ?_, .inl ⟨rfl, rfl, rfl⟩⟩
    · dsimp only
      rw [← H.remain_eq]
      omega
    · rw [nil_append, ← H.remain_eq]
      exact hdata
  obtain ⟨net1, st1, used, blocks', rest', hloop, hused, hrest', hlast, E, hcomp, hinput, hmax⟩ :=
    assemble_eq hcodec fuel A H.compress_eq hblocks H.input_eq hstream (le_refl 0) (by
        intro b1 b b2 heq hlt
        have := hfits b1 b b2 heq hlt
        dsimp only
        omega) hfuel
  rw [nil_append] at E
  have hlen : st1.startOfPacket - st1.firstPacketOffset - netHeaderSize - st1.multiBytePacket =
      payload.length := by
    rw [E.start_eq]
    omega
  have hremain : st1.bufLength - st1.startOfPacket = rest'.length := by
    rw [E.bufLength_eq, add_tsub_cancel_left]
  refine ⟨{ net1 with
      readPos := st1.firstPacketOffset + netHeaderSize
      bufLength := st1.bufLength
      remainInBuf := rest'.length
      saveChar := net1.buff (st1.firstPacketOffset + netHeaderSize + payload.length)
      buff := store net1.buff (st1.firstPacketOffset + netHeaderSize + payload.length) [0] },
    used, blocks', rest', ?_, ?_, hused, hrest', hlast, hmax, ?_⟩
  · rw [LibSources.myNetRead, if_pos H.compress_eq, myNetReadCompressed, hresume]
    dsimp only
    rw [hloop, bind_eq_bind, bind_some, Option.pure_def]
    rw [hlen, hremain]
  · exact (window_store_of_le _ _ le_rfl).trans E.payload_eq
  have hkept : (if EndsEmpty payload then rest'.set 0 0 else rest').length = rest'.length := by
    rw [apply_ite List.length, length_set, ite_self]
  refine ⟨hcomp, hinput, hkept.symm, by dsimp only; rw [hkept, E.bufLength_eq]; omega, ?_⟩
  have hpos : st1.bufLength - rest'.length = st1.startOfPacket := by
    rw [E.bufLength_eq, Nat.add_sub_cancel]
  rw [hkept, hpos]
  rcases E.multi with ⟨hm, hends⟩ | ⟨hm, hends, hzero⟩
  · have hend : st1.firstPacketOffset + netHeaderSize + payload.length = st1.startOfPacket := by
      rw [E.start_eq, hm, add_zero]
    rw [if_neg hends, hend, store_restore]
    exact E.rest_eq
  rw [if_pos hends, hzero]
  refine window_store_set _ _ (.trans (window_store_of_ge _ _ ?_) E.rest_eq)
  rw [E.start_eq, hm, length_singleton, netHeaderSize]
  omega

end LibSources
