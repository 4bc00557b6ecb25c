import LibSources.Net

/-!
# What the Sending Side Writes

A payload is split into frames (`frames`), which are collected in the write buffer and handed over
in blocks. The blocks written so far (`Sender`), together with what is still in the write buffer,
are the stream of frames.

## Main results

* `netWriteBuff_transparent`: no byte is lost in the write buffer.
-/

namespace LibSources

open Nat List Option

/-! ### The stream of frames -/

def frameHeader (n : ℕ) (nr : UInt32) : List UInt8 := int3store n ++ [nr.toUInt8]

def frames (nr : UInt32) (payload : List UInt8) : List UInt8 :=
  if maxPacketLength ≤ payload.length then
    frameHeader maxPacketLength nr ++ payload.take maxPacketLength ++
      frames (nr + 1) (payload.drop maxPacketLength)
  else frameHeader payload.length nr ++ payload
termination_by payload.length
decreasing_by
  have hpos := maxPacketLength_pos
  rw [List.length_drop]
  exact sub_lt (by omega) hpos

def nextNr (nr : UInt32) (payload : List UInt8) : UInt32 :=
  if maxPacketLength ≤ payload.length then nextNr (nr + 1) (payload.drop maxPacketLength)
  else nr + 1
termination_by payload.length
decreasing_by
  have hpos := maxPacketLength_pos
  rw [List.length_drop]
  exact sub_lt (by omega) hpos

section

variable (codec : Codec) (compress : Bool)

/-- The bytes `net_real_write` sends for a block, the `nr`-th one under compression. -/
def blockBytes (nr : UInt32) (block : List UInt8) : List UInt8 :=
  if compress then
    int3store (myCompress codec block).1.length ++ [nr.toUInt8] ++
      int3store (myCompress codec block).2 ++ (myCompress codec block).1
  else block

def blocksBytes (codec : Codec) (compress : Bool) : UInt32 → List (List UInt8) → List UInt8
  | _, [] => []
  | nr, block :: blocks =>
    blockBytes codec compress nr block ++ blocksBytes codec compress (nr + 1) blocks

/-- The packet number after a sequence of blocks. -/
def blocksNr (nr : UInt32) : List (List UInt8) → UInt32
  | [] => nr
  | _ :: blocks => blocksNr (nr + 1) blocks

theorem blocksBytes_concat (nr : UInt32) (blocks : List (List UInt8)) (block : List UInt8) :
    blocksBytes codec compress nr (blocks ++ [block]) = blocksBytes codec compress nr blocks ++
        blockBytes codec compress (blocksNr nr blocks) block := by
  induction blocks generalizing nr with
  | nil => simp [blocksBytes, blocksNr]
  | cons b blocks ih => rw [cons_append, blocksBytes, ih, blocksBytes, append_assoc, blocksNr]

end

theorem blocksNr_concat (nr : UInt32) (blocks : List (List UInt8)) (block : List UInt8) :
    blocksNr nr (blocks ++ [block]) = blocksNr nr blocks + 1 := by
  induction blocks generalizing nr with
  | nil => rfl
  | cons b blocks ih => exact ih (nr + 1)

theorem blocksBytes_plain (codec : Codec) (nr : UInt32) (blocks : List (List UInt8)) :
    blocksBytes codec false nr blocks = blocks.flatten := by
  induction blocks generalizing nr with
  | nil => rfl
  | cons b blocks ih => rw [blocksBytes, ih, blockBytes, if_neg Bool.false_ne_true, flatten_cons]

/-! ### The state of the sending side -/

/-- The sending side `net` has written `blocks` since it was in the state `start`, where
nothing was written or buffered; the blocks and the write buffer make up `stream`. Under
compression no block is longer than its three-byte length can say. -/
structure Sender (codec : Codec) (start net : Net) (blocks : List (List UInt8))
    (stream : List UInt8) : Prop where
  compress_eq : net.compress = start.compress
  usable : net.error ≠ 2
  sent_eq : net.vio.sent = blocksBytes codec start.compress start.compressPktNr blocks
  stream_eq : blocks.flatten ++ window net.buff 0 net.writePos = stream
  writePos_le : net.writePos ≤ net.maxPacket
  writePos_le_max : start.compress = true → net.writePos ≤ maxPacketLength
  block_le : start.compress = true → ∀ b ∈ blocks, b ≠ [] ∧ b.length ≤ maxPacketLength
  nr_eq : start.compress = true → net.compressPktNr = blocksNr start.compressPktNr blocks

variable {codec : Codec} {start net : Net} {blocks : List (List UInt8)} {stream : List UInt8}

theorem Sender.init (codec : Codec) (herr : start.error ≠ 2) (hsent : start.vio.sent = [])
    (hpos : start.writePos = 0) : Sender codec start start [] [] where
  compress_eq := rfl
  usable := herr
  sent_eq := hsent
  stream_eq := by rw [hpos]; rfl
  writePos_le := by omega
  writePos_le_max _ := by omega
  block_le _ := by simp
  nr_eq _ := rfl

theorem netRealWrite_eq (herr : net.error ≠ 2) (block : List UInt8) :
    netRealWrite codec net block = some { net with
      vio := { net.vio with
        sent := net.vio.sent ++ blockBytes codec net.compress net.compressPktNr block }
      compressPktNr := if net.compress then net.compressPktNr + 1 else net.compressPktNr } := by
  rw [netRealWrite, if_neg herr, blockBytes]
  cases hc : net.compress with
  | true => simp
  | false => simp

section

variable (S : Sender codec start net blocks stream)
include S

theorem Sender.writeBlock {block stream' : List UInt8} (hstream : blocks.flatten ++ block = stream')
    (hne : block ≠ []) (hle : start.compress = true → block.length ≤ maxPacketLength) :
    ∃ net', netRealWrite codec net block = some net' ∧ net'.pktNr = net.pktNr ∧
      net'.maxPacket = net.maxPacket ∧ net'.buff = net.buff ∧ net'.writePos = net.writePos ∧
      Sender codec start { net' with writePos := 0 } (blocks ++ [block]) stream' := by
  refine ⟨_, netRealWrite_eq S.usable block, rfl, rfl, rfl, rfl, ?_⟩
  exact {
    compress_eq := S.compress_eq
    usable := S.usable
    sent_eq := by
      rw [blocksBytes_concat, ← S.sent_eq]
      change net.vio.sent ++ blockBytes codec net.compress net.compressPktNr block = _
      cases hc : start.compress with
      | true => rw [S.compress_eq, hc, S.nr_eq hc]
      | false => rw [S.compress_eq, hc, blockBytes, blockBytes, if_neg Bool.false_ne_true,
          if_neg Bool.false_ne_true]
    stream_eq := by
      rw [flatten_append, flatten_singleton, window_zero, append_nil, hstream]
    writePos_le := zero_le _
    writePos_le_max := fun _ => zero_le _
    block_le := by
      intro hc b hb
      rcases mem_append.mp hb with hb | hb
      · exact S.block_le hc b hb
      · rw [mem_singleton.mp hb]
        exact ⟨hne, hle hc⟩
    nr_eq := by
      intro hc
      rw [blocksNr_concat, ← S.nr_eq hc]
      exact if_pos (S.compress_eq.trans hc) }

theorem Sender.writeOut (hpos : net.writePos ≠ 0) :
    ∃ net' blocks', writeOut codec net = some net' ∧ net'.pktNr = net.pktNr ∧
      net'.maxPacket = net.maxPacket ∧ net'.writePos = 0 ∧
      Sender codec start net' blocks' stream := by
  obtain ⟨net', hwrite, hnr, hmax, -, -, S'⟩ := S.writeBlock S.stream_eq
    (ne_nil_of_length_pos (by rw [length_window]; omega))
    (fun hc => by rw [length_window]; exact S.writePos_le_max hc)
  exact ⟨{ net' with writePos := 0 }, _, by rw [LibSources.writeOut, hwrite]; rfl, hnr, hmax,
    rfl, S'⟩

theorem Sender.netRealWrite (hpos : net.writePos = 0) (block : List UInt8) (hne : block ≠ [])
    (hle : start.compress = true → block.length ≤ maxPacketLength) :
    ∃ net' blocks', netRealWrite codec net block = some net' ∧ net'.pktNr = net.pktNr ∧
      net'.maxPacket = net.maxPacket ∧ net'.writePos = 0 ∧
      Sender codec start net' blocks' (stream ++ block) := by
  have hstream : blocks.flatten ++ block = stream ++ block := by
    rw [← S.stream_eq, hpos, window_zero, append_nil]
  obtain ⟨net', hwrite, hnr, hmax, -, hpos', S'⟩ := S.writeBlock hstream hne hle
  rw [hpos] at hpos'
  rw [← hpos'] at S'
  exact ⟨net', _, hwrite, hnr, hmax, hpos', S'⟩

variable (packet : List UInt8)

theorem Sender.append (hle : net.writePos + packet.length ≤ net.maxPacket)
    (hmax : start.compress = true → net.writePos + packet.length ≤ maxPacketLength) :
    Sender codec start (net.append packet) blocks (stream ++ packet) where
  compress_eq := S.compress_eq
  usable := S.usable
  sent_eq := S.sent_eq
  stream_eq := by
    have hwin := window_store_append net.buff 0 net.writePos packet
    rw [zero_add] at hwin
    rw [Net.append, hwin, ← append_assoc, S.stream_eq]
  writePos_le := hle
  writePos_le_max := hmax
  block_le := S.block_le
  nr_eq := S.nr_eq

theorem Sender.writeBlocks (hpos : net.writePos = 0) (packet : List UInt8) :
    ∃ net' packet' blocks' stream', writeBlocks codec net packet = some (net', packet') ∧
      net'.pktNr = net.pktNr ∧ net'.maxPacket = net.maxPacket ∧ net'.writePos = 0 ∧
      packet'.length ≤ maxPacketLength ∧ stream' ++ packet' = stream ++ packet ∧
      Sender codec start net' blocks' stream' := by
  induction hn : packet.length using Nat.strong_induction_on generalizing packet net blocks stream
    with
  | _ n ih =>
    rw [LibSources.writeBlocks]
    by_cases hlong : maxPacketLength < packet.length
    · rw [if_pos hlong]
      have hlen : (packet.take maxPacketLength).length = maxPacketLength := by
        rw [length_take]
        omega
      have hpos0 := maxPacketLength_pos
      obtain ⟨net1, blocks1, hwrite, hnr, hmax, hpos1, S1⟩ := S.netRealWrite hpos
        (packet.take maxPacketLength) (ne_nil_of_length_pos (by omega))
        (fun _ => by omega)
      obtain ⟨net', packet', blocks', stream', hrest, hnr', hmax', hpos', hle, happ, S'⟩ :=
        ih (packet.drop maxPacketLength).length (by rw [length_drop]; omega) S1 hpos1 _ rfl
      refine ⟨net', packet', blocks', stream', ?_, hnr'.trans hnr, hmax'.trans hmax, hpos', hle,
        ?_, S'⟩
      · rw [hwrite]
        exact hrest
      · rw [happ, append_assoc, take_append_drop]
    · rw [if_neg hlong]
      exact ⟨net, packet, blocks, stream, rfl, rfl, rfl, hpos, by omega, rfl, S⟩

theorem Sender.writeThrough {leftLength : ℕ}
    (hleft : leftLength < packet.length) (hroom : net.writePos + leftLength ≤ net.maxPacket)
    (hmax : start.compress = true → net.writePos + leftLength ≤ maxPacketLength) :
    ∃ net' packet' blocks' stream',
      writeThrough codec net packet leftLength = some (net', packet') ∧
      net'.pktNr = net.pktNr ∧ net'.maxPacket = net.maxPacket ∧ net'.writePos = 0 ∧
      (start.compress = true → packet'.length ≤ maxPacketLength) ∧
      stream' ++ packet' = stream ++ packet ∧ Sender codec start net' blocks' stream' := by
  obtain ⟨net1, packet1, blocks1, stream1, hfill, hnr, hmaxp, hpos, happ, S1⟩ :
      ∃ net1 packet1 blocks1 stream1, (if net.writePos ≠ 0 then
          (LibSources.writeOut codec (net.append (packet.take leftLength))).map
            (·, packet.drop leftLength)
        else some (net, packet)) = some (net1, packet1) ∧
        net1.pktNr = net.pktNr ∧ net1.maxPacket = net.maxPacket ∧ net1.writePos = 0 ∧
        stream1 ++ packet1 = stream ++ packet ∧ Sender codec start net1 blocks1 stream1 := by
    by_cases hpos : net.writePos = 0
    · exact ⟨net, packet, blocks, stream, if_neg (not_not.mpr hpos), rfl, rfl, hpos, rfl, S⟩
    have hlen : (packet.take leftLength).length = leftLength := by
      rw [length_take]
      omega
    have S0 := S.append (packet.take leftLength) (by rw [hlen]; exact hroom)
      (by rw [hlen]; exact hmax)
    obtain ⟨net1, blocks1, hwrite, hnr, hmaxp, hpos1, S1⟩ := S0.writeOut
      (by rw [Net.append]; dsimp only; omega)
    refine ⟨net1, packet.drop leftLength, blocks1, _, ?_, hnr, hmaxp, hpos1, ?_, S1⟩
    · rw [if_pos hpos, hwrite]
      rfl
    · rw [append_assoc, take_append_drop]
  rw [LibSources.writeThrough, hfill]
  change ∃ net' packet' blocks' stream',
    (if net1.compress then LibSources.writeBlocks codec net1 packet1 else some (net1, packet1)) =
      some (net', packet') ∧ _
  by_cases hc : start.compress = true
  · obtain ⟨net', packet', blocks', stream', hblocks, hnr', hmax', hpos', hle, happ', S'⟩ :=
      S1.writeBlocks hpos packet1
    refine ⟨net', packet', blocks', stream', ?_, hnr'.trans hnr, hmax'.trans hmaxp, hpos',
      fun _ => hle, happ'.trans happ, S'⟩
    rw [if_pos (S1.compress_eq.trans hc), hblocks]
  · refine ⟨net1, packet1, blocks1, stream1, ?_, hnr, hmaxp, hpos, fun h => absurd h hc, happ, S1⟩
    rw [if_neg (S1.compress_eq ▸ hc)]

theorem Sender.netWriteBuff :
    ∃ net' blocks', netWriteBuff codec net packet = some net' ∧ net'.pktNr = net.pktNr ∧
      Sender codec start net' blocks' (stream ++ packet) := by
  rw [LibSources.netWriteBuff]
  set leftLength := if net.compress ∧ maxPacketLength < net.maxPacket then
    maxPacketLength - net.writePos else net.maxPacket - net.writePos with hleft
  have hle := S.writePos_le
  have hroom : net.writePos + leftLength ≤ net.maxPacket := by
    rw [hleft]
    split_ifs with h
    · have := S.writePos_le_max (S.compress_eq ▸ h.1)
      omega
    · omega
  have hmax : start.compress = true → net.writePos + leftLength ≤ maxPacketLength := by
    intro hc
    have := S.writePos_le_max hc
    rw [hleft]
    split_ifs with h
    · omega
    · have : ¬ maxPacketLength < net.maxPacket := fun h' => h ⟨S.compress_eq.trans hc, h'⟩
      omega
  by_cases hlong : leftLength < packet.length
  · rw [if_pos hlong]
    obtain ⟨net1, packet1, blocks1, stream1, hthrough, hnr, hmaxp, hpos, hle1, happ, S1⟩ :=
      S.writeThrough packet hlong hroom hmax
    rw [hthrough]
    change ∃ net' blocks', (if net1.maxPacket < packet1.length then
      LibSources.netRealWrite codec net1 packet1 else some (net1.append packet1)) = some net' ∧ _
    by_cases hbig : net1.maxPacket < packet1.length
    · rw [if_pos hbig]
      obtain ⟨net', blocks', hwrite, hnr', -, -, S'⟩ := S1.netRealWrite hpos packet1
        (ne_nil_of_length_pos (by omega)) hle1
      rw [happ] at S'
      exact ⟨net', blocks', hwrite, hnr'.trans hnr, S'⟩
    rw [if_neg hbig]
    have S' := S1.append packet1 (by omega) (fun hc => by
      have := hle1 hc
      omega)
    rw [happ] at S'
    exact ⟨_, blocks1, rfl, hnr, S'⟩
  · rw [if_neg hlong]
    have S' := S.append packet (by omega) (fun hc => by
      have := hmax hc
      omega)
    exact ⟨_, blocks, rfl, rfl, S'⟩

theorem Sender.setPktNr (nr : UInt32) : Sender codec start { net with pktNr := nr } blocks stream :=
  ⟨S.compress_eq, S.usable, S.sent_eq, S.stream_eq, S.writePos_le, S.writePos_le_max, S.block_le,
    S.nr_eq⟩

theorem Sender.writeFrames :
    ∃ net' packet' blocks' stream', writeFrames codec net packet = some (net', packet') ∧
      stream' ++ (frameHeader packet'.length net'.pktNr ++ packet') =
        stream ++ frames net.pktNr packet ∧
      nextNr net.pktNr packet = net'.pktNr + 1 ∧ Sender codec start net' blocks' stream' := by
  induction hn : packet.length using Nat.strong_induction_on generalizing packet net blocks stream
    with
  | _ n ih =>
    rw [LibSources.writeFrames, frames, nextNr]
    by_cases hlong : maxPacketLength ≤ packet.length
    · rw [if_pos hlong, if_pos hlong, if_pos hlong]
      have hpos0 := maxPacketLength_pos
      obtain ⟨net1, blocks1, hwrite1, hnr1, S1⟩ := (S.setPktNr (net.pktNr + 1)).netWriteBuff
        (int3store maxPacketLength ++ [net.pktNr.toUInt8])
      obtain ⟨net2, blocks2, hwrite2, hnr2, S2⟩ := S1.netWriteBuff (packet.take maxPacketLength)
      obtain ⟨net', packet', blocks', stream', hrest, happ, hnext, S'⟩ :=
        ih (packet.drop maxPacketLength).length (by rw [length_drop]; omega) S2 _ rfl
      have hnr : net2.pktNr = net.pktNr + 1 := hnr2.trans hnr1
      rw [hnr] at happ hnext
      refine ⟨net', packet', blocks', stream', ?_, ?_, hnext, S'⟩
      · simp only [hwrite1, hwrite2, hrest, bind_eq_bind, bind_some]
      · rw [happ, frameHeader]
        simp only [append_assoc]
    · rw [if_neg hlong, if_neg hlong, if_neg hlong]
      exact ⟨net, packet, blocks, stream, rfl, rfl, rfl, S⟩

theorem Sender.myNetWrite :
    ∃ net' blocks', myNetWrite codec net packet = some net' ∧ net'.pktNr = nextNr net.pktNr packet ∧
      Sender codec start net' blocks' (stream ++ frames net.pktNr packet) := by
  obtain ⟨net1, packet1, blocks1, stream1, hframes, happ, hnext, S1⟩ := S.writeFrames packet
  obtain ⟨net2, blocks2, hwrite2, hnr2, S2⟩ := (S1.setPktNr (net1.pktNr + 1)).netWriteBuff
    (frameHeader packet1.length net1.pktNr)
  obtain ⟨net3, blocks3, hwrite3, hnr3, S3⟩ := S2.netWriteBuff packet1
  rw [append_assoc, happ] at S3
  refine ⟨net3, blocks3, ?_, ?_, S3⟩
  · rw [frameHeader] at hwrite2
    simp only [LibSources.myNetWrite, hframes, hwrite2, hwrite3, bind_eq_bind, bind_some]
  · rw [hnr3, hnr2, hnext]

/-- A flush leaves the write buffer empty. Without compression the packet number stays. -/
theorem Sender.netFlush :
    ∃ net' blocks', netFlush codec net = some net' ∧ net'.writePos = 0 ∧
      (start.compress = false → net'.pktNr = net.pktNr) ∧
      Sender codec start net' blocks' stream := by
  obtain ⟨net1, blocks1, hout, hpos, hnr, S1⟩ : ∃ net1 blocks1,
      (if net.writePos ≠ 0 then LibSources.writeOut codec net else some net) = some net1 ∧
      net1.writePos = 0 ∧ net1.pktNr = net.pktNr ∧ Sender codec start net1 blocks1 stream := by
    by_cases hpos : net.writePos = 0
    · exact ⟨net, blocks, if_neg (not_not.mpr hpos), hpos, rfl, S⟩
    · obtain ⟨net1, blocks1, hwrite, hnr, -, hpos1, S1⟩ := S.writeOut hpos
      exact ⟨net1, blocks1, (if_pos hpos).trans hwrite, hpos1, hnr, S1⟩
  refine ⟨_, blocks1, ?_, ?_, ?_, S1.setPktNr (if net1.compress then net1.compressPktNr
    else net1.pktNr)⟩
  · rw [LibSources.netFlush, hout]
    rfl
  · exact hpos
  · intro hc
    rw [S1.compress_eq, hc, if_neg Bool.false_ne_true, hnr]

end

/-! ### Sequences of calls -/

inductive WriteCall where
  | writeBuff (packet : List UInt8)
  | flush

def WriteCall.data : WriteCall → List UInt8
  | writeBuff packet => packet
  | flush => []

def WriteCall.run (codec : Codec) (net : Net) : WriteCall → Option Net
  | writeBuff packet => netWriteBuff codec net packet
  | flush => netFlush codec net

def runCalls (codec : Codec) : Net → List WriteCall → Option Net
  | net, [] => some net
  | net, call :: calls => do
      let net ← call.run codec net
      runCalls codec net calls

theorem Sender.run (S : Sender codec start net blocks stream) (call : WriteCall) :
    ∃ net' blocks', call.run codec net = some net' ∧
      Sender codec start net' blocks' (stream ++ call.data) := by
  cases call with
  | writeBuff packet =>
    obtain ⟨net', blocks', hwrite, -, S'⟩ := S.netWriteBuff packet
    exact ⟨net', blocks', hwrite, S'⟩
  | flush =>
    obtain ⟨net', blocks', hflush, -, -, S'⟩ := S.netFlush
    exact ⟨net', blocks', hflush, by rwa [WriteCall.data, append_nil]⟩

theorem Sender.runCalls (S : Sender codec start net blocks stream) (calls : List WriteCall) :
    ∃ net' blocks', runCalls codec net calls = some net' ∧
      Sender codec start net' blocks' (stream ++ calls.flatMap WriteCall.data) := by
  induction calls generalizing net blocks stream with
  | nil => exact ⟨net, blocks, rfl, by rwa [flatMap_nil, append_nil]⟩
  | cons call calls ih =>
    obtain ⟨net1, blocks1, hrun1, S1⟩ := S.run call
    obtain ⟨net', blocks', hrun, S'⟩ := ih S1
    refine ⟨net', blocks', ?_, ?_⟩
    · rw [LibSources.runCalls, hrun1]
      exact hrun
    · rwa [flatMap_cons, ← append_assoc]

/-- **Buffered writes.** After every run of calls the blocks that `net_real_write` has got and
the write buffer are the data given, in order; the write position is in the buffer; under
compression no block is too long for its length. A flush at the end leaves nothing behind. -/
theorem netWriteBuff_transparent (codec : Codec) {start : Net} (herr : start.error ≠ 2)
    (hsent : start.vio.sent = []) (hpos : start.writePos = 0) (calls : List WriteCall) :
    (∃ net blocks, runCalls codec start calls = some net ∧
      net.vio.sent = blocksBytes codec start.compress start.compressPktNr blocks ∧
      blocks.flatten ++ window net.buff 0 net.writePos = calls.flatMap WriteCall.data ∧
      net.writePos ≤ net.maxPacket ∧
      (start.compress = true → ∀ block ∈ blocks, block.length ≤ maxPacketLength)) ∧
    ∃ net blocks, (runCalls codec start calls).bind (netFlush codec) = some net ∧
      net.vio.sent = blocksBytes codec start.compress start.compressPktNr blocks ∧
      blocks.flatten = calls.flatMap WriteCall.data ∧
      (start.compress = true → ∀ block ∈ blocks, block.length ≤ maxPacketLength) := by
  obtain ⟨net, blocks, hrun, S⟩ := (Sender.init codec herr hsent hpos).runCalls calls
  obtain ⟨net', blocks', hflush, hempty, -, S'⟩ := S.netFlush
  rw [nil_append] at S S'
  refine ⟨⟨net, blocks, hrun, S.sent_eq, S.stream_eq, S.writePos_le,
      fun hc block hmem => (S.block_le hc block hmem).2⟩, net', blocks', ?_, S'.sent_eq, ?_,
    fun hc block hmem => (S'.block_le hc block hmem).2⟩
  · rw [hrun, bind_some, hflush]
  · have hstream := S'.stream_eq
    rwa [hempty, window_zero, append_nil] at hstream

def emptyNet : Net := myNetInit ⟨[], [], fun _ => 0, 0⟩ (fun _ => 0) 64 1024

theorem netWriteBuff_transparent_two :
    ∃ net blocks, (runCalls ⟨id, fun _ _ => none⟩ emptyNet
        [.writeBuff [1, 2], .flush, .writeBuff [3]]).bind (netFlush ⟨id, fun _ _ => none⟩) =
        some net ∧
      net.vio.sent = blocksBytes ⟨id, fun _ _ => none⟩ false 0 blocks ∧
      blocks.flatten = [1, 2, 3] := by
  obtain ⟨-, net, blocks, hrun, hsent, hflat, -⟩ := netWriteBuff_transparent ⟨id, fun _ _ => none⟩
    (by decide : emptyNet.error ≠ 2) rfl rfl [.writeBuff [1, 2], .flush, .writeBuff [3]]
  exact ⟨net, blocks, hrun, hsent, hflat⟩

end LibSources
