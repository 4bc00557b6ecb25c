import LibSources.ByteMemory

/-!
# The Packet Layer of `libmysql/net_serv.c`

A model of `myNetWrite`, `netFlush`, `myNetRead` and what they call, with and without
compression.

* A pointer into `net->buff` is its offset. The buffer is a total function; an allocation
  never fails.
* The connection is a byte stream. `vio_write` takes all bytes it is given. The `k`-th
  `vio_read` delivers at most `chunk k + 1` bytes of what is left of the stream, so that
  every way of cutting the stream into reads is some `chunk`; an empty stream is an error.
* `none` is an error return: `1` of the writing functions, `packet_error` of the reading ones.
* `compress` and `uncompress` of zlib are parameters.
-/

namespace LibSources

def maxPacketLength : ℕ := 256 * 256 * 256 - 1

theorem maxPacketLength_pos : 0 < maxPacketLength := by decide

def netHeaderSize : ℕ := 4

def compHeaderSize : ℕ := 3

def int3store (n : ℕ) : List UInt8 := [n.toUInt8, (n / 256).toUInt8, (n / 65536).toUInt8]

def uint3korr (mem : ℕ → UInt8) (i : ℕ) : ℕ :=
  (mem i).toNat + (mem (i + 1)).toNat * 256 + (mem (i + 2)).toNat * 65536

/-- The connection: the bytes written, the bytes that can still be read, the sizes of the
reads and the number of reads so far. -/
structure Vio where
  sent : List UInt8
  input : List UInt8
  chunk : ℕ → ℕ
  reads : ℕ

def vioRead (vio : Vio) (size : ℕ) : List UInt8 × Vio :=
  let n := min size (vio.chunk vio.reads + 1)
  (vio.input.take n, { vio with input := vio.input.drop n, reads := vio.reads + 1 })

structure Net where
  vio : Vio
  buff : ℕ → UInt8
  maxPacket : ℕ
  maxPacketSize : ℕ
  writePos : ℕ
  readPos : ℕ
  whereB : ℕ
  remainInBuf : ℕ
  bufLength : ℕ
  saveChar : UInt8
  pktNr : UInt32
  compressPktNr : UInt32
  compress : Bool
  error : ℕ

def myNetInit (vio : Vio) (buff : ℕ → UInt8) (maxPacket maxPacketSize : ℕ) : Net where
  vio := vio
  buff := buff
  maxPacket := maxPacket
  maxPacketSize := maxPacketSize
  writePos := 0
  readPos := 0
  whereB := 0
  remainInBuf := 0
  bufLength := 0
  saveChar := 0
  pktNr := 0
  compressPktNr := 0
  compress := false
  error := 0

/-- The two functions of zlib. `uncompress` is also given the size of the destination. -/
structure Codec where
  compress : List UInt8 → List UInt8
  uncompress : List UInt8 → ℕ → Option (List UInt8)

/-! ### Writing -/

/-- `my_compress`: the packet to send and `complen`, the length before compression, or `0`
when the packet is sent as it is. -/
def myCompress (codec : Codec) (packet : List UInt8) : List UInt8 × ℕ :=
  if packet.length < 50 then (packet, 0)
  else if packet.length ≤ (codec.compress packet).length then (packet, 0)
  else (codec.compress packet, packet.length)

section

variable (codec : Codec) (net : Net)

def netRealWrite (packet : List UInt8) : Option Net :=
  if net.error = 2 then none
  else if net.compress then
    let (data, complen) := myCompress codec packet
    some { net with
      vio := { net.vio with
        sent := net.vio.sent ++
          (int3store data.length ++ [net.compressPktNr.toUInt8] ++ int3store complen ++ data) }
      compressPktNr := net.compressPktNr + 1 }
  else some { net with vio := { net.vio with sent := net.vio.sent ++ packet } }

def writeOut : Option Net := do
  let net' ← netRealWrite codec net (window net.buff 0 net.writePos)
  pure { net' with writePos := 0 }

def netFlush : Option Net := do
  let net ← (if net.writePos ≠ 0 then writeOut codec net else some net)
  -- sync packet number if using compression
  pure { net with pktNr := if net.compress then net.compressPktNr else net.pktNr }

/-- The loop of `net_write_buff` that sends blocks of `MAX_PACKET_LENGTH` bytes under
compression. The rest of the packet is returned. -/
def writeBlocks (codec : Codec) (net : Net) (packet : List UInt8) : Option (Net × List UInt8) :=
  if maxPacketLength < packet.length then do
    let net' ← netRealWrite codec net (packet.take maxPacketLength)
    writeBlocks codec net' (packet.drop maxPacketLength)
  else some (net, packet)
termination_by packet.length
decreasing_by
  rw [List.length_drop]
  exact Nat.sub_lt (by omega) (by decide)

def Net.append (net : Net) (packet : List UInt8) : Net :=
  { net with buff := store net.buff net.writePos packet, writePos := net.writePos + packet.length }

variable (packet : List UInt8)

/-- The part of `net_write_buff` for a packet longer than `leftLength`: fill up the already
used buffer and write it, and send what is too long to be buffered. -/
def writeThrough (leftLength : ℕ) : Option (Net × List UInt8) := do
  let (net, packet) ← (if net.writePos ≠ 0 then
      (writeOut codec (net.append (packet.take leftLength))).map (·, packet.drop leftLength)
    else some (net, packet))
  if net.compress then writeBlocks codec net packet else some (net, packet)

def netWriteBuff : Option Net :=
  let leftLength :=
    if net.compress ∧ maxPacketLength < net.maxPacket then maxPacketLength - net.writePos
    else net.maxPacket - net.writePos
  if leftLength < packet.length then do
    let (net, packet) ← writeThrough codec net packet leftLength
    if net.maxPacket < packet.length then netRealWrite codec net packet
    else some (net.append packet)
  else some (net.append packet)

/-- The loop of `my_net_write` over the frames of `MAX_PACKET_LENGTH` bytes. The rest of
the packet is returned. -/
def writeFrames (codec : Codec) (net : Net) (packet : List UInt8) : Option (Net × List UInt8) :=
  if maxPacketLength ≤ packet.length then do
    let buff := int3store maxPacketLength ++ [net.pktNr.toUInt8]
    let net' ← netWriteBuff codec { net with pktNr := net.pktNr + 1 } buff
    let net' ← netWriteBuff codec net' (packet.take maxPacketLength)
    writeFrames codec net' (packet.drop maxPacketLength)
  else some (net, packet)
termination_by packet.length
decreasing_by
  rw [List.length_drop]
  have hpos := maxPacketLength_pos
  exact Nat.sub_lt (by omega) hpos

def myNetWrite : Option Net := do
  let (net, packet) ← writeFrames codec net packet
  let buff := int3store packet.length ++ [net.pktNr.toUInt8]
  let net ← netWriteBuff codec { net with pktNr := net.pktNr + 1 } buff
  netWriteBuff codec net packet

end

/-! ### Reading -/

section

variable (net : Net)

def netRealloc (length : ℕ) : Option Net :=
  if net.maxPacketSize ≤ length then none
  else
    let pktLength := (length + 4096 - 1) / 4096 * 4096
    some { net with writePos := 0, maxPacket := pktLength }

def readLoop (net : Net) (pos remain : ℕ) : Option Net :=
  if remain = 0 then some net
  else
    let (bytes, vio) := vioRead net.vio remain
    if bytes.length = 0 then none
    else
      readLoop { net with vio := vio, buff := store net.buff pos bytes }
        (pos + bytes.length) (remain - bytes.length)
termination_by remain

/-- The buffer is made large enough for `helping` bytes. -/
def ensureSize (helping : ℕ) : Option Net :=
  if net.maxPacket ≤ helping then netRealloc net helping else some net

/-- The first round of the loop of `my_real_read`: the header is read, and gives the length
of the packet and `complen`. A wrong packet number is an error. -/
def readHeader : Option (ℕ × ℕ × Net) := do
  let remain := if net.compress then netHeaderSize + compHeaderSize else netHeaderSize
  let net ← readLoop net net.whereB remain
  if net.buff (net.whereB + 3) ≠ net.pktNr.toUInt8 then none
  else
    some (uint3korr net.buff net.whereB,
      if net.compress then uint3korr net.buff (net.whereB + netHeaderSize) else 0,
      { net with pktNr := net.pktNr + 1, compressPktNr := net.pktNr + 1 })

/-- The second round of the loop of `my_real_read`: the packet is read over its header. -/
def readBody (len complen : ℕ) : Option Net := do
  -- the necessary size of net->buff
  let net ← ensureSize net (max len complen + net.whereB)
  readLoop net net.whereB len

def myRealRead : Option (ℕ × ℕ × Net) := do
  let (len, complen, net) ← readHeader net
  if len = 0 then some (len, complen, net)
  else (readBody net len complen).map (len, complen, ·)

end

/-- The loop of `my_net_read` over the frames of a multi-packet, after a frame of length
`len`. Every round reads a header, so `fuel` bounds the number of rounds. -/
def readFrames : ℕ → Net → ℕ → ℕ → Option (ℕ × Net)
  | 0, _, _, _ => none
  | fuel + 1, net, len, totalLength => do
      let (len', _, net') ← myRealRead { net with whereB := net.whereB + len }
      if len' = maxPacketLength then readFrames fuel net' len' (totalLength + len)
      else pure (len' + (totalLength + len), net')

def readPacket (net : Net) : Option (ℕ × Net) := do
  let (len, _, net) ← myRealRead net
  if len = maxPacketLength then readFrames (net.vio.input.length + 1) net len 0
  else some (len, net)

def myNetReadPlain (net : Net) : Option (ℕ × Net) := do
  let savePos := net.whereB
  let (len, net) ← readPacket net
  pure (len, { net with
    whereB := savePos
    readPos := savePos
    buff := store net.buff (savePos + len) [0] })

/-- `my_uncompress`, on `len` bytes at offset `pos`: the buffer and the length after it. -/
def myUncompress (codec : Codec) (buff : ℕ → UInt8) (pos len complen : ℕ) :
    Option ((ℕ → UInt8) × ℕ) :=
  if complen ≠ 0 then do
    let data ← codec.uncompress (window buff pos len) complen
    pure (store buff pos data, data.length)
  else some (buff, len)

/-- The local variables of the compressed branch of `my_net_read`. -/
structure Assembly where
  bufLength : ℕ
  startOfPacket : ℕ
  firstPacketOffset : ℕ
  multiBytePacket : ℕ

/-- Move data down to read the next data packet after the current one. -/
def moveDown (net : Net) (st : Assembly) : Net × Assembly :=
  if st.firstPacketOffset ≠ 0 then
    ({ net with
        buff := memmove net.buff 0 st.firstPacketOffset (st.bufLength - st.firstPacketOffset) },
      { st with
        bufLength := st.bufLength - st.firstPacketOffset
        startOfPacket := st.startOfPacket - st.firstPacketOffset
        firstPacketOffset := 0 })
  else (net, st)

/-- One more compressed block is read behind the data in the buffer. -/
def readBlock (codec : Codec) (net : Net) (st : Assembly) : Option (Net × Assembly) := do
  let (net, st) := moveDown net st
  let (packetLen, complen, net) ← myRealRead { net with whereB := st.bufLength }
  let (buff, complen) ← myUncompress codec net.buff net.whereB packetLen complen
  pure ({ net with buff := buff }, { st with bufLength := st.bufLength + complen })

def takeFrame (net : Net) (st : Assembly) (readLength : ℕ) : Net × Assembly :=
  if st.multiBytePacket ≠ 0 then
    -- remove packet header for second packet
    ({ net with
        buff := memmove net.buff (st.firstPacketOffset + st.startOfPacket)
          (st.firstPacketOffset + st.startOfPacket + netHeaderSize)
          (st.bufLength - st.startOfPacket) },
      { st with
        startOfPacket := st.startOfPacket + readLength
        bufLength := st.bufLength - netHeaderSize })
  else (net, { st with startOfPacket := st.startOfPacket + readLength + netHeaderSize })

/-- The loop of the compressed branch of `my_net_read`. -/
def assemble (codec : Codec) : ℕ → Net → Assembly → Option (Net × Assembly)
  | 0, _, _ => none
  | fuel + 1, net, st =>
    let readLength := uint3korr net.buff st.startOfPacket
    if netHeaderSize ≤ st.bufLength - st.startOfPacket ∧ readLength = 0 then
      -- end of multi-byte packet
      some (net, { st with startOfPacket := st.startOfPacket + netHeaderSize })
    else if netHeaderSize ≤ st.bufLength - st.startOfPacket ∧
        readLength + netHeaderSize ≤ st.bufLength - st.startOfPacket then
      let (net, st) := takeFrame net st readLength
      if readLength ≠ maxPacketLength then some (net, { st with multiBytePacket := 0 })
      else
        let (net, st) := moveDown net { st with multiBytePacket := netHeaderSize }
        assemble codec fuel net st
    else do
      let (net, st) ← readBlock codec net st
      assemble codec fuel net st

/-- The start of the compressed branch of `my_net_read`: the data left in the old packet. -/
def resume (net : Net) : Net × Assembly :=
  if net.remainInBuf ≠ 0 then
    let startOfPacket := net.bufLength - net.remainInBuf
    -- restore the character that was overwritten by the end 0
    ({ net with buff := store net.buff startOfPacket [net.saveChar] },
      ⟨net.bufLength, startOfPacket, startOfPacket, 0⟩)
  else (net, ⟨0, 0, 0, 0⟩)

variable (codec : Codec) (fuel : ℕ) (net : Net)

def myNetReadCompressed : Option (ℕ × Net) := do
  let (net, st) := resume net
  let (net, st) ← assemble codec fuel net st
  let readPos := st.firstPacketOffset + netHeaderSize
  let len := st.startOfPacket - st.firstPacketOffset - netHeaderSize - st.multiBytePacket
  pure (len, { net with
    readPos := readPos
    bufLength := st.bufLength
    remainInBuf := st.bufLength - st.startOfPacket
    saveChar := net.buff (readPos + len)
    buff := store net.buff (readPos + len) [0] })

def myNetRead : Option (ℕ × Net) :=
  if net.compress then myNetReadCompressed codec fuel net else myNetReadPlain net

end LibSources
