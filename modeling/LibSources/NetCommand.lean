import LibSources.NetWrite

/-!
# `net_write_command`

The command byte and the header go into the first frame, and the packet is continued in the later
ones. Without compression the frames are all that is on the wire; under compression the blocks may
be cut at other places.

## Main results

* `netWriteCommand_sends_myNetWrite`: the frames are those of `my_net_write`.
-/

namespace LibSources

open List Option

/-- The loop of `net_write_command`: the connection, what is left of the packet, and `length`.
`lead` is the command in the header of the first frame. A `len` beyond the packet reads behind
it. -/
def commandFrames (codec : Codec) (net : Net) (lead header packet : List UInt8) (len length : ℕ) :
    Option (Net × List UInt8 × ℕ) :=
  if packet.length < len then none
  else do
    let buff := int3store maxPacketLength ++ [net.pktNr.toUInt8]
    let net ← netWriteBuff codec { net with pktNr := net.pktNr + 1 } (buff ++ lead)
    let net ← netWriteBuff codec net header
    let net ← netWriteBuff codec net (packet.take len)
    if maxPacketLength ≤ length - maxPacketLength then
      commandFrames codec net [] [] (packet.drop len) maxPacketLength (length - maxPacketLength)
    else some (net, packet.drop len, length - maxPacketLength)
termination_by length
decreasing_by
  have hpos := maxPacketLength_pos
  omega

/-- The frame behind the full ones, with what is left of the command, the header and the packet. -/
def lastCommandFrame (codec : Codec) (net : Net) (lead header packet : List UInt8) (length : ℕ) :
    Option Net := do
  let buff := int3store length ++ [net.pktNr.toUInt8]
  let net ← netWriteBuff codec { net with pktNr := net.pktNr + 1 } (buff ++ lead)
  let net ← (if header.length ≠ 0 then netWriteBuff codec net header else some net)
  let net ← netWriteBuff codec net packet
  netFlush codec net

def netWriteCommand (codec : Codec) (net : Net) (command : UInt8) (header packet : List UInt8) :
    Option Net :=
  let length := packet.length + 1 + header.length
  if maxPacketLength ≤ length then do
    let len := (2 ^ 64 + maxPacketLength - 1 - header.length) % 2 ^ 64
    let (net, packet, length) ← commandFrames codec net [command] header packet len length
    lastCommandFrame codec net [] [] (packet.take length) length
  else lastCommandFrame codec net [command] header packet length

variable {codec : Codec} {start net : Net} {blocks : List (List UInt8)} {stream : List UInt8}

theorem Sender.commandFrames (S : Sender codec start net blocks stream)
    {lead header packet : List UInt8} {len length : ℕ}
    (hlen : lead.length + header.length + len = maxPacketLength)
    (hlength : length = (lead ++ header ++ packet).length) (hlong : maxPacketLength ≤ length) :
    ∃ net' rest blocks' stream',
      commandFrames codec net lead header packet len length = some (net', rest, rest.length) ∧
      stream' ++ (frameHeader rest.length net'.pktNr ++ rest) =
        stream ++ frames net.pktNr (lead ++ header ++ packet) ∧
      nextNr net.pktNr (lead ++ header ++ packet) = net'.pktNr + 1 ∧
      Sender codec start net' blocks' stream' := by
  induction hn : length using Nat.strong_induction_on
    generalizing net blocks stream lead header packet len length with
  | _ n ih =>
    subst hn
    have hpos := maxPacketLength_pos
    have hsum := hlength
    simp only [length_append] at hsum
    obtain ⟨net1, blocks1, hwrite1, hnr1, S1⟩ := (S.setPktNr (net.pktNr + 1)).netWriteBuff
      (int3store maxPacketLength ++ [net.pktNr.toUInt8] ++ lead)
    obtain ⟨net2, blocks2, hwrite2, hnr2, S2⟩ := S1.netWriteBuff header
    obtain ⟨net3, blocks3, hwrite3, hnr3, S3⟩ := S2.netWriteBuff (packet.take len)
    have hnr : net3.pktNr = net.pktNr + 1 := (hnr3.trans hnr2).trans hnr1
    -- the first frame of the whole text, and the text behind it
    have htake : (lead ++ header ++ packet).take maxPacketLength =
        lead ++ header ++ packet.take len := by
      rw [← hlen, ← length_append, take_length_add_append]
    have hdrop : (lead ++ header ++ packet).drop maxPacketLength = packet.drop len := by
      rw [← hlen, ← length_append, drop_length_add_append]
    have hrest : (packet.drop len).length = length - maxPacketLength := by
      rw [length_drop]
      omega
    rw [LibSources.commandFrames, if_neg (by omega), frames, nextNr, if_pos (hlength ▸ hlong),
      if_pos (hlength ▸ hlong), htake, hdrop]
    dsimp only
    rw [hwrite1, bind_eq_bind, bind_some, hwrite2, bind_some, hwrite3, bind_some]
    by_cases hmore : maxPacketLength ≤ length - maxPacketLength
    · have hnone : ([] : List UInt8).length + ([] : List UInt8).length + maxPacketLength =
          maxPacketLength := by rw [length_nil, Nat.zero_add]
      obtain ⟨net', rest, blocks', stream', hrun, happ, hnext, S'⟩ := ih
        (length - maxPacketLength) (by omega) S3 hnone hrest.symm hmore rfl
      rw [append_nil, nil_append, hnr] at happ hnext
      refine ⟨net', rest, blocks', stream', ?_, ?_, hnext, S'⟩
      · rw [if_pos hmore, hrun]
      · rw [happ, frameHeader]
        simp only [append_assoc]
    · refine ⟨net3, packet.drop len, blocks3, _, ?_, ?_, ?_, S3⟩
      · rw [if_neg hmore, hrest]
      · rw [frames, if_neg (by omega), hnr, frameHeader, frameHeader]
        simp only [append_assoc]
      · rw [nextNr, if_neg (by omega), hnr]

theorem Sender.lastCommandFrame (S : Sender codec start net blocks stream)
    (lead header packet : List UInt8) (length : ℕ) :
    ∃ net' blocks', lastCommandFrame codec net lead header packet length = some net' ∧
      net'.writePos = 0 ∧ (start.compress = false → net'.pktNr = net.pktNr + 1) ∧
      Sender codec start net' blocks'
        (stream ++ (frameHeader length net.pktNr ++ (lead ++ header ++ packet))) := by
  obtain ⟨net1, blocks1, hwrite1, hnr1, S1⟩ := (S.setPktNr (net.pktNr + 1)).netWriteBuff
    (int3store length ++ [net.pktNr.toUInt8] ++ lead)
  obtain ⟨net2, blocks2, hwrite2, hnr2, S2⟩ : ∃ net2 blocks2,
      (if header.length ≠ 0 then LibSources.netWriteBuff codec net1 header else some net1) =
        some net2 ∧
      net2.pktNr = net1.pktNr ∧ Sender codec start net2 blocks2
        (stream ++ (int3store length ++ [net.pktNr.toUInt8] ++ lead) ++ header) := by
    by_cases hnil : header.length = 0
    · rw [length_eq_zero_iff.mp hnil, append_nil]
      exact ⟨net1, blocks1, rfl, rfl, S1⟩
    · rw [if_pos hnil]
      exact S1.netWriteBuff header
  obtain ⟨net3, blocks3, hwrite3, hnr3, S3⟩ := S2.netWriteBuff packet
  obtain ⟨net', blocks', hflush, hpos, hnr', S'⟩ := S3.netFlush
  refine ⟨net', blocks', ?_, hpos, fun hc => ?_, ?_⟩
  · simp only [LibSources.lastCommandFrame, hwrite1, hwrite2, hwrite3, hflush, bind_eq_bind,
      bind_some]
  · rw [hnr' hc, hnr3, hnr2, hnr1]
  · simpa only [frameHeader, append_assoc] using S'

theorem Sender.netWriteCommand (S : Sender codec start net blocks stream) (command : UInt8)
    {header : List UInt8} (hheader : header.length < maxPacketLength) (packet : List UInt8) :
    ∃ net' blocks', netWriteCommand codec net command header packet = some net' ∧
      net'.writePos = 0 ∧
      (start.compress = false → net'.pktNr = nextNr net.pktNr (command :: header ++ packet)) ∧
      Sender codec start net' blocks'
        (stream ++ frames net.pktNr (command :: header ++ packet)) := by
  have hlength : packet.length + 1 + header.length = ([command] ++ header ++ packet).length := by
    simp only [length_append, length_singleton]
    omega
  have hmax : maxPacketLength = 2 ^ 24 - 1 := by decide
  rw [LibSources.netWriteCommand]
  dsimp only
  by_cases hlong : maxPacketLength ≤ packet.length + 1 + header.length
  · have hlen : (2 ^ 64 + maxPacketLength - 1 - header.length) % 2 ^ 64 =
        maxPacketLength - 1 - header.length := by omega
    have hfirst : [command].length + header.length + (maxPacketLength - 1 - header.length) =
        maxPacketLength := by
      rw [length_singleton]
      omega
    obtain ⟨net1, rest, blocks1, stream1, hrun, happ, hnext, S1⟩ :=
      S.commandFrames hfirst hlength hlong
    obtain ⟨net', blocks', hlast, hpos, hnr, S'⟩ := S1.lastCommandFrame [] [] rest rest.length
    rw [nil_append, nil_append, happ] at S'
    refine ⟨net', blocks', ?_, hpos, fun hc => (hnr hc).trans hnext.symm, S'⟩
    rw [if_pos hlong, hlen, hrun, bind_eq_bind, bind_some, take_length, hlast]
  · obtain ⟨net', blocks', hlast, hpos, hnr, S'⟩ := S.lastCommandFrame [command] header packet
      (packet.length + 1 + header.length)
    have hframes : frames net.pktNr ([command] ++ header ++ packet) =
        frameHeader (packet.length + 1 + header.length) net.pktNr ++
          ([command] ++ header ++ packet) := by
      rw [frames, if_neg (hlength ▸ hlong), hlength]
    rw [← hframes] at S'
    refine ⟨net', blocks', by rw [if_neg hlong, hlast], hpos, fun hc => (hnr hc).trans ?_, S'⟩
    exact (by rw [nextNr, if_neg (hlength ▸ hlong)] : net.pktNr + 1 =
      nextNr net.pktNr ([command] ++ header ++ packet))

/-- From any state of the sending side, `net_write_command` and `my_net_write` of the whole text
with `net_flush` send the same frames. Without compression these are the bytes on the wire; under
compression the blocks that carry them may be cut at other places. -/
theorem netWriteCommand_sends_myNetWrite (S : Sender codec start net blocks stream)
    (command : UInt8) {header : List UInt8} (hheader : header.length < maxPacketLength)
    (packet : List UInt8) :
    ∃ net₁ net₂ blocks₁ blocks₂, netWriteCommand codec net command header packet = some net₁ ∧
      (myNetWrite codec net (command :: header ++ packet)).bind (netFlush codec) = some net₂ ∧
      net₁.vio.sent = blocksBytes codec start.compress start.compressPktNr blocks₁ ∧
      net₂.vio.sent = blocksBytes codec start.compress start.compressPktNr blocks₂ ∧
      blocks₁.flatten = blocks₂.flatten ∧
      (start.compress = false → net₁.vio.sent = net₂.vio.sent ∧ net₁.pktNr = net₂.pktNr) := by
  obtain ⟨net₁, blocks₁, hcommand, hpos₁, hnr₁, S₁⟩ := S.netWriteCommand command hheader packet
  obtain ⟨net', blocks', hwrite, hnr', S'⟩ := S.myNetWrite (command :: header ++ packet)
  obtain ⟨net₂, blocks₂, hflush, hpos₂, hnr₂, S₂⟩ := S'.netFlush
  -- both write buffers are empty, so the blocks are the whole stream
  have hflat : blocks₁.flatten = blocks₂.flatten := by
    have h₁ := S₁.stream_eq
    have h₂ := S₂.stream_eq
    rw [hpos₁, window_zero, append_nil] at h₁
    rw [hpos₂, window_zero, append_nil] at h₂
    exact h₁.trans h₂.symm
  refine ⟨net₁, net₂, blocks₁, blocks₂, hcommand, by rw [hwrite, bind_some, hflush],
    S₁.sent_eq, S₂.sent_eq, hflat, fun hc => ⟨?_, ?_⟩⟩
  · rw [S₁.sent_eq, S₂.sent_eq, hc, blocksBytes_plain, blocksBytes_plain, hflat]
  · rw [hnr₁ hc, hnr₂ hc, hnr']

/-- A connection with four bytes in a write buffer of eight. -/
def halfFullNet (compress : Bool) : Net :=
  { myNetInit ⟨[], [], fun _ => 0, 0⟩ (fun _ => 1) 8 1024 with compress := compress, writePos := 4 }

theorem Sender.halfFull (codec : Codec) (compress : Bool) :
    Sender codec (halfFullNet compress) (halfFullNet compress) [] [1, 1, 1, 1] where
  compress_eq := rfl
  usable := by decide +revert
  sent_eq := rfl
  stream_eq := rfl
  writePos_le := by decide +revert
  writePos_le_max _ := by decide +revert
  block_le _ := by simp
  nr_eq _ := rfl

theorem netWriteCommand_sends_frames :
    ∃ net₁ net₂, netWriteCommand ⟨id, fun _ _ => none⟩ (halfFullNet false) 3 [1, 2, 3]
        (replicate maxPacketLength 7) = some net₁ ∧
      (myNetWrite ⟨id, fun _ _ => none⟩ (halfFullNet false)
        (3 :: [1, 2, 3] ++ replicate maxPacketLength 7)).bind
        (netFlush ⟨id, fun _ _ => none⟩) = some net₂ ∧ net₁.vio.sent = net₂.vio.sent := by
  obtain ⟨net₁, net₂, -, -, h₁, h₂, -, -, -, hplain⟩ := netWriteCommand_sends_myNetWrite
    (Sender.halfFull ⟨id, fun _ _ => none⟩ false) 3
    (by decide : ([1, 2, 3] : List UInt8).length < maxPacketLength) (replicate maxPacketLength 7)
  exact ⟨net₁, net₂, h₁, h₂, (hplain rfl).1⟩

/-- A header that fills the first frame: the length of the first part of the packet wraps, and
`net_write_buff` reads behind the packet. -/
theorem netWriteCommand_long_header {header packet : List UInt8} (command : UInt8)
    (hheader : maxPacketLength ≤ header.length) (hmemory : packet.length + header.length < 2 ^ 64) :
    netWriteCommand codec net command header packet = none := by
  have hmax : maxPacketLength = 2 ^ 24 - 1 := rfl
  have hwrap : packet.length < (2 ^ 64 + maxPacketLength - 1 - header.length) % 2 ^ 64 := by omega
  simp only [netWriteCommand]
  rw [if_pos (by omega), LibSources.commandFrames, if_pos hwrap, bind_eq_bind, bind_none]

/-- The header of a frame fills the buffer; with the command behind it, it does not fit. So the
text of twelve bytes is sent as one block, or in two. And a command with a header of `2 ^ 24 - 1`
bytes reads behind the packet. -/
theorem netWriteCommand_cuts_blocks :
    ((netWriteCommand ⟨id, fun _ _ => none⟩ (halfFullNet true) 3 [] (replicate 11 7)).map
      fun net => net.vio.sent.length) = some 41 ∧
    (((myNetWrite ⟨id, fun _ _ => none⟩ (halfFullNet true) (3 :: replicate 11 7)).bind
      (netFlush ⟨id, fun _ _ => none⟩)).map fun net => net.vio.sent.length) = some 34 ∧
    netWriteCommand ⟨id, fun _ _ => none⟩ (halfFullNet false) 3 (replicate maxPacketLength 7) [] =
      none ∧
    ∃ net, myNetWrite ⟨id, fun _ _ => none⟩ (halfFullNet false)
      (3 :: replicate maxPacketLength 7) = some net := by
  refine ⟨by decide +kernel, by decide +kernel, netWriteCommand_long_header 3 ?_ ?_, ?_⟩
  · rw [length_replicate]
  · rw [length_replicate]
    decide
  · obtain ⟨net, -, hwrite, -⟩ :=
      (Sender.halfFull ⟨id, fun _ _ => none⟩ false).myNetWrite (3 :: replicate maxPacketLength 7)
    exact ⟨net, hwrite⟩

end LibSources
